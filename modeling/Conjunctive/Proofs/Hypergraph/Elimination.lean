import Conjunctive.Hypergraph.Elimination
import Conjunctive.Proofs.Hypergraph.Ear
import Mathlib.Data.List.Pairwise

/-!
# Runs of the elimination

`Eliminates rs g left` says that the removals `rs` lead from the hyperedges `g`
to `left`: each takes an ear away, with a witness that is still there. Rounds
are a way to find such a run, and the run is all that is said of them further
on, together with the fact that no ear is left when they stop.
-/

namespace Conjunctive

namespace Hypergraph

/-- Different hyperedges have different sets of vertices. -/
def Distinct (g : Hypergraph) : Prop :=
  List.Pairwise (fun e f => e.vertexSet ≠ f.vertexSet) g

theorem Distinct.eq_of_vertexSet_eq {g : Hypergraph} (hg : g.Distinct) {e f : Hyperedge}
    (he : e ∈ g) (hf : f ∈ g) (h : e.vertexSet = f.vertexSet) : e = f := by
  by_contra hne
  have hsymm : Std.Symm fun e f : Hyperedge => e.vertexSet ≠ f.vertexSet := ⟨fun _ _ h => h.symm⟩
  exact List.Pairwise.forall hg he hf hne h

theorem Distinct.eq_of_vertices_eq {g : Hypergraph} (hg : g.Distinct) {e f : Hyperedge}
    (he : e ∈ g) (hf : f ∈ g) (h : e.vertices = f.vertices) : e = f :=
  hg.eq_of_vertexSet_eq he hf (by rw [Hyperedge.vertexSet, h]; rfl)

theorem Distinct.sublist {g h : Hypergraph} (hg : g.Distinct) (hh : List.Sublist h g) :
    h.Distinct :=
  List.Pairwise.sublist hh hg

theorem others_sublist (e : Hyperedge) (g : Hypergraph) : List.Sublist (others e g) g :=
  List.filter_sublist

theorem mem_others {e f : Hyperedge} {g : Hypergraph} :
    f ∈ others e g ↔ f ∈ g ∧ f.vertices ≠ e.vertices := by
  simp [others]

theorem Distinct.mem_others_iff {g : Hypergraph} (hg : g.Distinct) {e f : Hyperedge}
    (he : e ∈ g) : f ∈ others e g ↔ f ∈ g ∧ f ≠ e := by
  rw [mem_others]
  refine and_congr_right fun hf => not_congr ⟨hg.eq_of_vertices_eq hf he, ?_⟩
  rintro rfl
  rfl

theorem Distinct.nodup {g : Hypergraph} (hg : g.Distinct) : List.Nodup g :=
  List.Pairwise.imp (fun h heq => h (congrArg Hyperedge.vertexSet heq)) hg

/-- Only the hyperedge itself is missing among the others. -/
theorem Distinct.perm_others {g : Hypergraph} (hg : g.Distinct) {e : Hyperedge} (he : e ∈ g) :
    List.Perm g (e :: others e g) := by
  have hnot : e ∉ others e g := by simp [mem_others]
  refine (List.perm_ext_iff_of_nodup hg.nodup
    (List.nodup_cons.mpr ⟨hnot, (hg.sublist (others_sublist e g)).nodup⟩)).mpr fun f => ?_
  rw [List.mem_cons, hg.mem_others_iff he]
  by_cases hfe : f = e
  · simp [hfe, he]
  · simp [hfe]

/-- A run of removals from some hyperedges to those that are left. -/
def Eliminates : List Removal → Hypergraph → Hypergraph → Prop
  | [], g, left => left = g
  | r :: rs, g, left => r.ear ∈ g ∧ r.ear.EarWith (others r.ear g) r.witness ∧
      Eliminates rs (others r.ear g) left

theorem Eliminates.append {rs ss : List Removal} {g h left : Hypergraph}
    (hrs : Eliminates rs g h) (hss : Eliminates ss h left) : Eliminates (rs ++ ss) g left := by
  induction rs generalizing g with
  | nil =>
      cases hrs
      exact hss
  | cons r rs ih => exact ⟨hrs.1, hrs.2.1, ih hrs.2.2⟩

theorem Eliminates.sublist {rs : List Removal} {g left : Hypergraph}
    (h : Eliminates rs g left) : List.Sublist left g := by
  induction rs generalizing g with
  | nil =>
      cases h
      exact List.Sublist.refl _
  | cons r rs ih => exact (ih h.2.2).trans (others_sublist r.ear g)

/-- A round is a run, since an edge of the snapshot stays until its own turn. -/
theorem eliminates_round {es g : Hypergraph} (hes : es.Distinct) (hsub : ∀ e ∈ es, e ∈ g)
    (hg : g.Distinct) : Eliminates (round es g).removals g (round es g).left := by
  induction es generalizing g with
  | nil => rfl
  | cons e es ih =>
      have htail : Distinct es := List.Pairwise.of_cons hes
      simp only [round]
      split
      · exact ih htail (fun f hf => hsub f (by simp [hf])) hg
      · rename_i w hear
        refine ⟨hsub e (by simp), earWith_of_ear? hear,
          ih htail ?_ (hg.sublist (others_sublist e g))⟩
        intro f hf
        rw [mem_others]
        refine ⟨hsub f (by simp [hf]), fun heq => ?_⟩
        exact List.rel_of_pairwise_cons hes hf (by rw [Hyperedge.vertexSet, ← heq]; rfl)

/-- A round without removals changed nothing and found no ear. -/
theorem round_of_removals_eq_nil {es g : Hypergraph} (h : (round es g).removals = []) :
    (round es g).left = g ∧ ∀ e ∈ es, ear? e.vertices (others e g) = none := by
  induction es with
  | nil => exact ⟨rfl, by simp⟩
  | cons e es ih =>
      simp only [round] at h ⊢
      cases hear : ear? e.vertices (others e g) with
      | none =>
          simp only [hear] at h ⊢
          refine ⟨(ih h).1, ?_⟩
          intro f hf
          rcases List.mem_cons.mp hf with rfl | hf
          · exact hear
          · exact (ih h).2 f hf
      | some w => simp [hear] at h

theorem eliminates_eliminate {g : Hypergraph} (hg : g.Distinct) :
    Eliminates g.eliminate.removals g g.eliminate.left := by
  fun_induction eliminate g with
  | case1 g => rfl
  | case2 g first h hlt rest ih =>
      have hround : Eliminates first.removals g first.left :=
        eliminates_round hg (fun _ he => he) hg
      exact hround.append (ih (hg.sublist hround.sublist))

/-- When the rounds stop, no ear is left. -/
theorem not_isEar_of_mem_left {g : Hypergraph} {e : Hyperedge} (he : e ∈ g.eliminate.left) :
    ¬ IsEar e.vertexSet (edgeSets (others e g.eliminate.left)) := by
  rw [← ear?_eq_none_iff]
  fun_induction eliminate g with
  | case1 g first h => exact (round_of_removals_eq_nil h).2 e he
  | case2 g first h hlt rest ih => exact ih he

end Hypergraph

end Conjunctive
