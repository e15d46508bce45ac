import Conjunctive.Proofs.Forest.Shape
import Conjunctive.Proofs.Hypergraph.JoinForest

/-!
# Acyclic queries are those with a join forest

The elimination picks its ears and witnesses greedily. Still it uses up every
hypergraph that has a join forest: if something is left there is no ear among
it, so its shared variables are a tangle; a tangle of what is left is a tangle
of the hypergraph; and a hypergraph with a join forest has none.
-/

namespace Conjunctive

namespace Hypergraph

theorem edgeSets_eq_insert {g : Hypergraph} (hg : g.Distinct) {e : Hyperedge} (he : e ∈ g) :
    edgeSets g = Insert.insert e.vertexSet (edgeSets (others e g)) := by
  have hmem : {f | f ∈ g} = Insert.insert e {f | f ∈ others e g} := by
    ext f
    rw [Set.mem_insert_iff, Set.mem_ofPred_eq, Set.mem_ofPred_eq, (hg.perm_others he).mem_iff,
      List.mem_cons]
  rw [edgeSets, hmem, Set.image_insert_eq]
  rfl

theorem edgeSets_others {g : Hypergraph} (hg : g.Distinct) {e : Hyperedge} (he : e ∈ g) :
    edgeSets (others e g) = edgeSets g \ {e.vertexSet} := by
  ext s
  constructor
  · rintro ⟨f, hf, rfl⟩
    obtain ⟨hf, hfe⟩ := (hg.mem_others_iff he).mp hf
    exact ⟨⟨f, hf, rfl⟩, fun heq => hfe (hg.eq_of_vertexSet_eq hf he heq)⟩
  · rintro ⟨⟨f, hf, rfl⟩, hne⟩
    refine ⟨f, (hg.mem_others_iff he).mpr ⟨hf, ?_⟩, rfl⟩
    rintro rfl
    exact hne rfl

/-- A run of the elimination keeps all tangles and makes none. -/
theorem Eliminates.isTangle_iff {rs : List Removal} {g left : Hypergraph} (hg : g.Distinct)
    (h : Eliminates rs g left) {Y : Set String} :
    IsTangle (edgeSets g) Y ↔ IsTangle (edgeSets left) Y := by
  induction rs generalizing g with
  | nil => rw [show left = g from h]
  | cons r rs ih =>
      rw [edgeSets_eq_insert hg h.1, isTangle_insert_iff (isEar_of_earWith h.2.1)]
      exact ih (hg.sublist (others_sublist _ _)) h.2.2

theorem not_isEar_left {g : Hypergraph} (hg : g.Distinct) {s : Set String}
    (hs : s ∈ edgeSets g.eliminate.left) : ¬ IsEar s (edgeSets g.eliminate.left \ {s}) := by
  have hleft := hg.sublist (eliminates_eliminate hg).sublist
  obtain ⟨e, he, rfl⟩ := hs
  rw [← edgeSets_others hleft he]
  exact not_isEar_of_mem_left he

/-- If the elimination leaves something, the hypergraph has a tangle. -/
theorem exists_isTangle {g : Hypergraph} (hg : g.Distinct) (hne : g.eliminate.left ≠ []) :
    ∃ Y, IsTangle (edgeSets g) Y ∧ Y.Nonempty := by
  refine ⟨sharedIn (edgeSets g.eliminate.left), ?_, ?_⟩
  · rw [(eliminates_eliminate hg).isTangle_iff hg]
    exact isTangle_sharedIn fun s hs => not_isEar_left hg hs
  · obtain ⟨e, he⟩ := List.exists_mem_of_ne_nil _ hne
    exact sharedIn_nonempty (fun s hs => not_isEar_left hg hs) ⟨_, e, he, rfl⟩

theorem finite_edgeSets (g : Hypergraph) : (edgeSets g).Finite := g.finite_toSet.image _

/-- The elimination leaves nothing of a hypergraph that has a join forest. -/
theorem left_eq_nil_of_isJoinForest {g : Hypergraph} (hg : g.Distinct)
    {G : SimpleGraph (Set String)} (hG : IsJoinForest id (edgeSets g) G) :
    g.eliminate.left = [] := by
  by_contra hne
  obtain ⟨Y, hY, hYne⟩ := exists_isTangle hg hne
  rw [← Set.image_id (edgeSets g)] at hY
  rw [hG.tangle_eq_empty (finite_edgeSets g) hY] at hYne
  exact Set.not_nonempty_empty hYne

end Hypergraph

namespace Query

open Conjunctive.Hypergraph

theorem isSome_forest?_iff {g : Hypergraph} : g.forest?.isSome = true ↔ g.eliminate.left = [] := by
  dsimp only [forest?]
  split_ifs with hleft
  · simpa using hleft
  · simpa using hleft

/-- The elimination of a query succeeds if and only if there is a join forest
on its sets of variables. -/
theorem left_eq_nil_iff (q : Query) :
    (ofQuery q).eliminate.left = [] ↔ ∃ G, IsJoinForest id q.variableSets G := by
  have hg := (merges_ofQuery q).distinct
  constructor
  · intro hleft
    obtain ⟨f, hf⟩ := Option.isSome_iff_exists.mp (isSome_forest?_iff.mpr hleft)
    have hspans := Forest.spans_of_forest? hg hf
    rw [← hspans.covers.bijOn.image_eq]
    exact hspans.isJoinForest.image hspans.covers.bijOn.injOn
  · rintro ⟨G, hG⟩
    rw [← edgeSets_ofQuery] at hG
    exact left_eq_nil_of_isJoinForest hg hG

end Query

end Conjunctive
