import Conjunctive.Hypergraph.Ear

/-!
# Elimination of ears

Ears are removed from a hypergraph round by round. A round goes once through
the hyperedges that are left when it begins, and tests each against those that
are left when its turn comes. The rounds end when nothing is left, or when a
round finds no ear.

The result is the sequence of removals, each with the witness of the ear, and
the hyperedges that are left. The hypergraph is acyclic when none is left.
-/

namespace Conjunctive

/-- An ear that was removed, and its witness if it needed one. -/
structure Removal where
  ear : Hyperedge
  witness : Option Hyperedge

/-- The removals in order, and the hyperedges that are left. -/
structure Elimination where
  removals : List Removal
  left : List Hyperedge

namespace Hypergraph

/-- The hyperedges other than the one with the given vertices. -/
def others (e : Hyperedge) (left : List Hyperedge) : List Hyperedge :=
  left.filter fun f => f.vertices != e.vertices

/-- Go once through the given hyperedges, removing those that are ears among
what is left. -/
def round : List Hyperedge → List Hyperedge → Elimination
  | [], left => ⟨[], left⟩
  | e :: es, left =>
    match ear? e.vertices (others e left) with
    | none => round es left
    | some witness =>
      let rest := round es (others e left)
      ⟨⟨e, witness⟩ :: rest.removals, rest.left⟩

theorem length_left_round_le (es left : List Hyperedge) :
    (round es left).left.length ≤ left.length := by
  induction es generalizing left with
  | nil => simp [round]
  | cons e es ih =>
      simp only [round]
      split
      · exact ih left
      · exact Nat.le_trans (ih _) (List.length_filter_le _ _)

/-- A round over hyperedges that are all left leaves fewer, unless it finds no
ear. -/
theorem length_left_round_lt {es left : List Hyperedge} (hsub : ∀ e ∈ es, e ∈ left)
    (h : (round es left).removals ≠ []) : (round es left).left.length < left.length := by
  induction es with
  | nil => simp [round] at h
  | cons e es ih =>
      have he : e ∈ left := hsub e (by simp)
      have hes : ∀ f ∈ es, f ∈ left := fun f hf => hsub f (by simp [hf])
      simp only [round] at h ⊢
      split at h <;> rename_i hear
      · exact ih hes h
      · refine Nat.lt_of_le_of_lt (length_left_round_le _ _) ?_
        refine List.length_filter_lt_length_iff_exists.mpr ⟨e, he, by simp⟩

/-- Remove ears round by round. -/
def eliminate (g : Hypergraph) : Elimination :=
  let first := round g g
  if h : first.removals = [] then ⟨[], g⟩
  else
    have : first.left.length < g.length := length_left_round_lt (fun _ he => he) h
    let rest := eliminate first.left
    ⟨first.removals ++ rest.removals, rest.left⟩
termination_by List.length g

end Hypergraph

end Conjunctive
