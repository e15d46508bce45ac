import Conjunctive.Proofs.Hypergraph.Ear

/-!
# Tangles

A tangle is a set of variables within which no single hyperedge contains all
the hyperedges through one of its variables. The removal of an ear neither
makes nor undoes a tangle, whatever its witness is (`isTangle_insert_iff`), so
the order in which ears are removed does not matter: where no ear is left, the
shared variables are a tangle of all the hyperedges there ever were.
-/

namespace Conjunctive

variable {α : Type*}

/-- A set of variables is a tangle of some hyperedges if its variables occur in
them and, within the set, none of them contains all those through a variable. -/
structure IsTangle (E : Set (Set α)) (Y : Set α) : Prop where
  occurs : ∀ y ∈ Y, ∃ e ∈ E, y ∈ e
  uncovered : ∀ y ∈ Y, ∀ w ∈ E, ∃ e ∈ E, y ∈ e ∧ ¬ e ∩ Y ⊆ w

/-- The part of an ear inside a tangle lies in the rest of its witness. -/
theorem IsTangle.exists_cover {E : Set (Set α)} {Y e : Set α} (he : IsEar e E)
    (h : IsTangle (insert e E) Y) {y : α} (hy : y ∈ Y) (hye : y ∈ e) :
    ∃ w ∈ E, y ∈ w ∧ e ∩ Y ⊆ w := by
  have hshared : ∀ z ∈ Y, z ∈ e → ∃ f ∈ E, z ∈ f := by
    intro z hz hze
    obtain ⟨f, hf, hzf, hsub⟩ := h.uncovered z hz e (Set.mem_insert e E)
    rcases Set.mem_insert_iff.mp hf with rfl | hf
    · exact absurd Set.inter_subset_left hsub
    · exact ⟨f, hf, hzf⟩
  rcases he with hexclusive | ⟨w, hw, hcover⟩
  · obtain ⟨f, hf, hyf⟩ := hshared y hy hye
    exact absurd hyf (hexclusive y hye f hf)
  · refine ⟨w, hw, hcover y hye (hshared y hy hye), ?_⟩
    rintro z ⟨hze, hz⟩
    exact hcover z hze (hshared z hz hze)

theorem IsTangle.of_insert {E : Set (Set α)} {Y e : Set α} (he : IsEar e E)
    (h : IsTangle (insert e E) Y) : IsTangle E Y where
  occurs := by
    intro y hy
    obtain ⟨f, hf, hyf⟩ := h.occurs y hy
    rcases Set.mem_insert_iff.mp hf with rfl | hf
    · obtain ⟨w, hw, hyw, -⟩ := h.exists_cover he hy hyf
      exact ⟨w, hw, hyw⟩
    · exact ⟨f, hf, hyf⟩
  uncovered := by
    intro y hy u hu
    obtain ⟨f, hf, hyf, hsub⟩ := h.uncovered y hy u (Set.mem_insert_of_mem e hu)
    rcases Set.mem_insert_iff.mp hf with rfl | hf
    · obtain ⟨w, hw, hyw, hcover⟩ := h.exists_cover he hy hyf
      refine ⟨w, hw, hyw, fun hwu => hsub ?_⟩
      exact fun z hz => hwu ⟨hcover hz, hz.2⟩
    · exact ⟨f, hf, hyf, hsub⟩

theorem IsTangle.insert {E : Set (Set α)} {Y e : Set α} (he : IsEar e E)
    (h : IsTangle E Y) : IsTangle (insert e E) Y where
  occurs := by
    intro y hy
    obtain ⟨f, hf, hyf⟩ := h.occurs y hy
    exact ⟨f, Set.mem_insert_of_mem e hf, hyf⟩
  uncovered := by
    intro y hy u hu
    rcases Set.mem_insert_iff.mp hu with rfl | hu
    · rcases he with hexclusive | ⟨w, hw, hcover⟩
      · obtain ⟨f, hf, hyf⟩ := h.occurs y hy
        refine ⟨f, Set.mem_insert_of_mem u hf, hyf, fun hsub => ?_⟩
        exact hexclusive y (hsub ⟨hyf, hy⟩) f hf hyf
      · obtain ⟨f, hf, hyf, hsub⟩ := h.uncovered y hy w hw
        refine ⟨f, Set.mem_insert_of_mem u hf, hyf, fun hfu => hsub ?_⟩
        exact fun z hz => hcover z (hfu hz) (h.occurs z hz.2)
    · obtain ⟨f, hf, hyf, hsub⟩ := h.uncovered y hy u hu
      exact ⟨f, Set.mem_insert_of_mem e hf, hyf, hsub⟩

/-- The tangles of some hyperedges do not depend on an ear among them. -/
theorem isTangle_insert_iff {E : Set (Set α)} {Y e : Set α} (he : IsEar e E) :
    IsTangle (insert e E) Y ↔ IsTangle E Y :=
  ⟨fun h => h.of_insert he, fun h => h.insert he⟩

theorem IsTangle.eq_empty_of_empty {Y : Set α} (h : IsTangle ∅ Y) : Y = ∅ := by
  rw [Set.eq_empty_iff_forall_notMem]
  intro y hy
  obtain ⟨e, he, -⟩ := h.occurs y hy
  exact he

/-- The elements that at least two of some sets have. -/
def sharedIn (E : Set (Set α)) : Set α := {x | ∃ e ∈ E, ∃ f ∈ E, f ≠ e ∧ x ∈ e ∧ x ∈ f}

/-- Where there is no ear, the shared variables are a tangle. -/
theorem isTangle_sharedIn {E : Set (Set α)} (h : ∀ e ∈ E, ¬ IsEar e (E \ {e})) :
    IsTangle E (sharedIn E) where
  occurs := by
    rintro y ⟨e, he, -, -, -, hye, -⟩
    exact ⟨e, he, hye⟩
  uncovered := by
    rintro y ⟨e, he, f, hf, hfe, hye, hyf⟩ w hw
    by_contra hnone
    push Not at hnone
    -- an edge through `y` other than `w` would be an ear with the witness `w`
    have hother : ∀ g ∈ E, y ∈ g → g = w := by
      intro g hg hyg
      by_contra hgw
      refine h g hg (Or.inr ⟨w, ⟨hw, fun hwg => hgw hwg.symm⟩, ?_⟩)
      rintro v hvg ⟨k, ⟨hk, hkg⟩, hvk⟩
      exact hnone g hg hyg ⟨hvg, g, hg, k, hk, hkg, hvg, hvk⟩
    exact hfe ((hother f hf hyf).trans (hother e he hye).symm)

theorem sharedIn_nonempty {E : Set (Set α)} (h : ∀ e ∈ E, ¬ IsEar e (E \ {e}))
    (hne : E.Nonempty) : (sharedIn E).Nonempty := by
  obtain ⟨e, he⟩ := hne
  by_contra hempty
  refine h e he (Or.inl ?_)
  rintro v hv f ⟨hf, hfe⟩ hvf
  exact hempty ⟨v, e, he, f, hf, hfe, hv, hvf⟩

end Conjunctive
