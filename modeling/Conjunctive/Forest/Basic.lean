import Conjunctive.Hypergraph.Elimination
import Conjunctive.Forest.Key

/-!
# Join forests

The removals of an elimination that leaves nothing form a forest: every ear is
a child of its witness, and an ear without a witness is a root. Since a witness
is still there when its ear is removed, children are removed before their
parents, and the sequence of removals is the whole forest.

Nodes are hyperedges. They are listed in the order in which the removals name
them, an ear before its witness, and the children of a node in the order of
their removal.
-/

namespace Conjunctive

/-- A join forest, given by the removals that built it. -/
structure Forest where
  removals : List Removal

namespace Forest

/-- Add a hyperedge to a list unless one with its vertices is there. -/
def addNode (nodes : List Hyperedge) (e : Hyperedge) : List Hyperedge :=
  if nodes.any fun n => n.vertices == e.vertices then nodes else nodes ++ [e]

/-- The nodes in the order in which the removals name them. -/
def nodes (f : Forest) : List Hyperedge :=
  (f.removals.flatMap fun r => r.ear :: r.witness.toList).foldl addNode []

/-- The children of a node in the order of their removal. -/
def children (f : Forest) (n : Hyperedge) : List Hyperedge :=
  (f.removals.filter fun r =>
    r.witness.any fun w => w.vertices == n.vertices).map Removal.ear

/-- The parent of a node. -/
def parent? (f : Forest) (n : Hyperedge) : Option Hyperedge :=
  (f.removals.find? fun r => r.ear.vertices == n.vertices).bind Removal.witness

/-- The nodes without a parent. -/
def roots (f : Forest) : List Hyperedge := f.nodes.filter fun n => (f.parent? n).isNone

/-- The nodes without children. -/
def leaves (f : Forest) : List Hyperedge := f.nodes.filter fun n => (f.children n).isEmpty

/-- The lines that show the tree under a node, to a given depth of nesting. -/
def outlineFrom (f : Forest) : Nat → Nat → Hyperedge → List String
  | 0, _, _ => []
  | fuel + 1, depth, n =>
    n.outlineLine depth :: (f.children n).flatMap (outlineFrom f fuel (depth + 1))

/-- The forest as an outline. No path is longer than the number of removals. -/
def outline (f : Forest) : String :=
  String.intercalate "\n" (f.roots.flatMap (f.outlineFrom f.removals.length 0))

end Forest

namespace Hypergraph

/-- The join forest of a hypergraph, if it is acyclic. -/
def forest? (g : Hypergraph) : Option Forest :=
  let e := g.eliminate
  if e.left.isEmpty then some ⟨e.removals⟩ else none

end Hypergraph

namespace Query

def isAcyclic (q : Query) : Bool := (Hypergraph.ofQuery q).forest?.isSome

end Query

end Conjunctive
