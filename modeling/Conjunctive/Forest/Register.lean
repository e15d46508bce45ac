import Conjunctive.Hypergraph.Basic
import Conjunctive.Forest.Key
import Conjunctive.Text.Quoted

/-!
# Registers of forest nodes

A register is a forest under construction. Every node ever made has a number and
keeps it; some of the nodes are listed, each under the key of its vertices, in
the order of their listing. A link is known at both ends: a node names its
children in order, and its parent if it was given one.

Children hold on to a node, a parent link does not. `forget` clears the parent
links that lead to nodes which nothing holds any more: neither the list, nor the
roots, nor the caller, nor the children of a node that is held.
-/

namespace Conjunctive

namespace Register

/-- A node of a register: its hyperedge and its links to other nodes. -/
structure Node where
  edge : Hyperedge
  children : List Nat
  parent : Option Nat
  deriving Inhabited

def Node.key (n : Node) : String := canonicalKey n.edge.vertices

def Node.isLeaf (n : Node) : Bool := n.children.isEmpty

end Register

/-- All nodes by number, the listed ones by key, and the roots. -/
structure Register where
  nodes : List Register.Node
  listed : List (String × Nat)
  roots : List Nat

namespace Register

/-- The register without nodes. -/
def empty : Register := ⟨[], [], []⟩

/-- The node with a number. -/
def node (r : Register) (i : Nat) : Node := r.nodes.getD i default

/-- The key of the node with a number. -/
def key (r : Register) (i : Nat) : String := (r.node i).key

/-- Change the node with a number. -/
def update (r : Register) (i : Nat) (f : Node → Node) : Register :=
  { r with nodes := r.nodes.modify i f }

/-- The listed nodes in the order of their listing. -/
def members (r : Register) : List Nat := r.listed.map Prod.snd

/-- The listed node with a key. -/
def find? (r : Register) (key : String) : Option Nat := List.lookup key r.listed

/-- Whether a key is taken. -/
def contains (r : Register) (key : String) : Bool := (r.find? key).isSome

/-- Make a node over vertices, each of which counts once. It is not listed. -/
def make (r : Register) (vertices : List String) (atoms : List Atom) : Register × Nat :=
  ({ r with nodes := r.nodes ++ [⟨⟨vertices.eraseDups, atoms⟩, [], none⟩] }, r.nodes.length)

/-- List a node unless its key is taken. Gives the node listed under the key. -/
def add (r : Register) (i : Nat) : Register × Nat :=
  match r.find? (r.key i) with
  | some j => (r, j)
  | none => ({ r with listed := r.listed ++ [(r.key i, i)] }, i)

/-- The listed node over vertices, made if there is none. -/
def getOrMake (r : Register) (vertices : List String) (atoms : List Atom) : Register × Nat :=
  match r.find? (canonicalKey vertices) with
  | some i => (r, i)
  | none =>
    let (r, i) := r.make vertices atoms
    r.add i

/-- Make a node the last child of another, which becomes its parent. -/
def addChild (r : Register) (parent child : Nat) : Register :=
  (r.update parent fun n => { n with children := n.children ++ [child] }).update child
    fun n => { n with parent := some parent }

/-- Take a node out of the children of its parent. -/
def detach (r : Register) (i : Nat) : Register :=
  match (r.node i).parent with
  | none => r
  | some p => r.update p fun n => { n with children := n.children.filter (· != i) }

/-- Clear the parent link of a node. -/
def orphan (r : Register) (i : Nat) : Register := r.update i fun n => { n with parent := none }

/-- Take the node with a key off the list and out of the roots, and cut its links
at their other ends. Gives the node, if there is one. -/
def remove (r : Register) (key : String) : Register × Option Nat :=
  match r.find? key with
  | none => (r, none)
  | some i =>
    let r := { r with listed := r.listed.filter (·.1 != key) }
    let r := r.detach i
    let r := (r.node i).children.foldl orphan r
    ({ r with roots := r.roots.filter (· != i) }, some i)

/-- Take the listed nodes without a parent as roots. -/
def setRoots (r : Register) : Register :=
  { r with roots := r.members.filter fun i => (r.node i).parent.isNone }

/-- Whether a node is among the roots. -/
def isRoot (r : Register) (i : Nat) : Bool := r.roots.contains i

/-- The listed nodes without children. -/
def leaves (r : Register) : List Nat := r.members.filter fun i => (r.node i).isLeaf

/-- A node as text. -/
def display (r : Register) (i : Nat) : String :=
  "JoinTreeNode(" ++ r.key i ++ ", children="
    ++ Text.quotedList ((r.node i).children.map r.key) ++ ")"

/-! ### What is held -/

/-- The nodes held by way of some, after a number of steps from node to child. -/
def holdFrom (r : Register) : Nat → List Nat → List Nat
  | 0, held => held
  | steps + 1, held =>
    r.holdFrom steps (held ++ held.flatMap fun i => (r.node i).children).eraseDups

/-- The nodes that are held when the caller holds some. A node that is held at all
is reached in fewer steps than there are nodes. -/
def held (r : Register) (caller : List Nat) : List Nat :=
  r.holdFrom r.nodes.length (caller ++ r.members ++ r.roots).eraseDups

/-- Clear the parent links to nodes that nothing holds. -/
def forget (r : Register) (caller : List Nat) : Register :=
  let kept := r.held caller
  { r with nodes := r.nodes.map fun n => { n with parent := n.parent.filter kept.contains } }

/-! ### Outline -/

/-- The lines that show the tree under a node, down to a number of levels. There is
no outline if the links go on below these levels. -/
def outlineFrom? (r : Register) : Nat → Nat → Nat → Option (List String)
  | 0, _, _ => none
  | levels + 1, depth, i => do
    let below ← (r.node i).children.mapM (r.outlineFrom? levels (depth + 1))
    pure ((r.node i).edge.outlineLine depth :: below.flatten)

/-- The trees under the roots as an outline. Links that go through more nodes than
there are lead around in a circle, and then there is no outline. -/
def outline? (r : Register) : Option String := do
  let trees ← r.roots.mapM (r.outlineFrom? r.nodes.length 0)
  pure (String.intercalate "\n" trees.flatten)

end Register

end Conjunctive
