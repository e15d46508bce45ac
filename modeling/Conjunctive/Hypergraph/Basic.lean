import Conjunctive.Query.Basic

/-!
# The hypergraph of a query

The vertices are the variables of the body, and each set of variables that some
atom has is one hyperedge. Atoms with the same variables share their hyperedge;
ground atoms have none. A hyperedge lists its vertices in the order of its
first atom, without repetition.
-/

namespace Conjunctive

/-- A set of variables, listed in the order of the first atom that has them,
with all the atoms that have exactly them. -/
structure Hyperedge where
  vertices : List String
  atoms : List Atom
  deriving Inhabited

namespace Hyperedge

/-- The hyperedge over some vertices, each listed once. -/
def ofVertices (vertices : List String) : Hyperedge := ⟨vertices.eraseDups, []⟩

/-- Whether a variable is a vertex of the hyperedge. -/
def contains (e : Hyperedge) (v : String) : Bool := e.vertices.contains v

/-- Whether two lists have the same members. -/
def sameSet (us vs : List String) : Bool := us.all vs.contains && vs.all us.contains

/-- A hyperedge as shown to a reader. -/
def display (e : Hyperedge) : String :=
  "HyperEdge(\x7b" ++ String.intercalate ", " e.vertices ++ "\x7d, atoms=["
    ++ String.intercalate ", " (e.atoms.map Atom.display) ++ "])"

/-- A hyperedge as a line of an outline, indented by its depth. -/
def outlineLine (depth : Nat) (e : Hyperedge) : String :=
  String.ofList (List.replicate (2 * depth) ' ') ++ "\x7b"
    ++ String.intercalate ", " e.vertices ++ "\x7d ["
    ++ String.intercalate ", " (e.atoms.map Atom.display) ++ "]"

end Hyperedge

abbrev Hypergraph := List Hyperedge

namespace Hypergraph

/-- Add an atom: to the hyperedge with its variables, or as a new one. A ground
atom is left out. -/
def insert (g : Hypergraph) (a : Atom) : Hypergraph :=
  if a.isGround then g
  else if g.any fun e => Hyperedge.sameSet e.vertices a.vars then
    g.map fun e =>
      if Hyperedge.sameSet e.vertices a.vars then { e with atoms := e.atoms ++ [a] } else e
  else g ++ [⟨a.vars, [a]⟩]

def ofAtoms (atoms : List Atom) : Hypergraph := atoms.foldl insert []

def ofQuery (q : Query) : Hypergraph := ofAtoms q.body

/-- The hyperedge over exactly the given vertices. -/
def find? (g : Hypergraph) (vertices : List String) : Option Hyperedge :=
  List.find? (fun e => Hyperedge.sameSet e.vertices vertices) g

/-- Remove the hyperedge over exactly the given vertices. -/
def remove (g : Hypergraph) (vertices : List String) : Hypergraph :=
  g.filter fun e => !Hyperedge.sameSet e.vertices vertices

end Hypergraph

end Conjunctive
