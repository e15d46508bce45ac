import Conjunctive.Hypergraph.Basic

/-!
# Ears

A hyperedge is an ear among others if its vertices that occur in the others all
lie in a single one of them, its witness. An ear none of whose vertices occur
elsewhere needs no witness.

The test scans the vertices in order. At the first shared vertex it takes the
first candidate that contains it as the witness and scans on; when a later shared
vertex is not in the witness, the witness is dropped and the scan goes back to where
it was taken. A step takes a witness from the candidates, drops it, or passes a
vertex, so the scan ends.
-/

namespace Conjunctive

namespace Ear

/-- Whether a vertex occurs in some hyperedge. -/
def isShared (others : List Hyperedge) (v : String) : Bool := others.any (·.contains v)

/-- The first candidate that contains a vertex, and the other candidates. -/
def pick? (v : String) : List Hyperedge → Option (Hyperedge × List Hyperedge)
  | [] => none
  | c :: cs =>
    if c.contains v then some (c, cs)
    else (pick? v cs).map fun p => (p.1, c :: p.2)

theorem length_pick {v : String} {cs : List Hyperedge} {p : Hyperedge × List Hyperedge}
    (h : pick? v cs = some p) : p.2.length < cs.length := by
  induction cs generalizing p with
  | nil => simp [pick?] at h
  | cons c cs ih =>
      simp only [pick?] at h
      split at h
      · cases h; simp
      · obtain ⟨q, hq, rfl⟩ := Option.map_eq_some_iff.mp h
        simpa using ih hq

/-- Scan vertices for a witness among the candidates. A witness that was taken is held
together with the vertices to go back to, those from the one on at which it was taken.
Gives `none` if there is no ear, and the witness, if one is needed, otherwise. -/
def scan (others candidates : List Hyperedge) (held : Option (Hyperedge × List String))
    (vertices : List String) : Option (Option Hyperedge) :=
  match vertices with
  | [] => some (held.map Prod.fst)
  | v :: vs =>
    if isShared others v then
      match held with
      | some (witness, resume) =>
        if witness.contains v then scan others candidates (some (witness, resume)) vs
        else scan others candidates none resume
      | none =>
        match h : pick? v candidates with
        | none => none
        | some (witness, rest) =>
          have : rest.length < candidates.length := length_pick h
          scan others rest (some (witness, v :: vs)) vs
    else scan others candidates held vs
termination_by (2 * candidates.length + held.toList.length, vertices.length)

end Ear

/-- The ear test for an edge with the given vertices among other hyperedges:
`none` if it is no ear, else its witness, if it needs one. -/
def ear? (vertices : List String) (others : List Hyperedge) : Option (Option Hyperedge) :=
  Ear.scan others others none vertices

end Conjunctive
