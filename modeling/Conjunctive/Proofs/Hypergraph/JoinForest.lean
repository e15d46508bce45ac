import Conjunctive.Proofs.Hypergraph.Tangle
import Mathlib.Combinatorics.SimpleGraph.Acyclic

/-!
# Join forests

The nodes of a join forest stand for sets of variables. Its links form no
cycle, and the nodes with a given variable are connected among themselves. A
leaf of a join forest is an ear, with its neighbour as witness, and what
remains is a join forest again; hence its hyperedges have no tangle.
-/

namespace Conjunctive

open SimpleGraph

variable {V α : Type*}

/-- A graph is a join forest on some nodes if it has no cycle among them and
connects, for every variable, those that have it. -/
structure IsJoinForest (vars : V → Set α) (S : Set V) (G : SimpleGraph V) : Prop where
  acyclic : (G.induce S).IsAcyclic
  connected : ∀ x, (G.induce {v | v ∈ S ∧ x ∈ vars v}).Preconnected

/-! ### Leaves -/

/-- A finite graph without cycles has a node with at most one neighbour: an end
of a longest path. -/
theorem exists_subsingleton_neighborSet [Finite V] [Nonempty V] {G : SimpleGraph V}
    (hG : G.IsAcyclic) : ∃ v, (G.neighborSet v).Subsingleton := by
  obtain ⟨u, v, p, hp, hmax⟩ := Walk.exists_isPath_forall_isPath_length_le_length G
  refine ⟨u, ?_⟩
  have hsnd : ∀ w, G.Adj u w → w = p.snd := by
    intro w hadj
    refine hG.eq_snd_of_adj_start hp hadj ?_
    by_contra hw
    have hlong := hmax w v (p.cons hadj.symm) (hp.cons hw)
    rw [Walk.length_cons] at hlong
    omega
  intro w hw w' hw'
  rw [hsnd w hw, hsnd w' hw']

namespace IsJoinForest

variable {vars : V → Set α} {S : Set V} {G : SimpleGraph V}

/-- A variable that a node shares with another is one of a neighbour. -/
theorem exists_adj (h : IsJoinForest vars S G) {u v : V} (hu : u ∈ S) (hv : v ∈ S)
    (huv : u ≠ v) {x : α} (hxu : x ∈ vars u) (hxv : x ∈ vars v) :
    ∃ w ∈ S, G.Adj u w ∧ x ∈ vars w := by
  obtain ⟨p⟩ := h.connected x ⟨u, hu, hxu⟩ ⟨v, hv, hxv⟩
  cases p with
  | nil => exact absurd rfl huv
  | @cons _ w _ hadj q => exact ⟨w, w.2.1, hadj, w.2.2⟩

/-- A node with at most one neighbour is an ear. -/
theorem isEar_of_subsingleton (h : IsJoinForest vars S G) {u : V} (hu : u ∈ S)
    (hleaf : {w | w ∈ S ∧ G.Adj u w}.Subsingleton) :
    IsEar (vars u) (vars '' (S \ {u})) := by
  by_cases hshare : ∃ x ∈ vars u, ∃ v ∈ S \ {u}, x ∈ vars v
  · obtain ⟨x, hxu, v, ⟨hv, hvu⟩, hxv⟩ := hshare
    obtain ⟨w, hw, hadj, -⟩ := h.exists_adj hu hv (Ne.symm hvu) hxu hxv
    refine Or.inr ⟨vars w, ⟨w, ⟨hw, hadj.ne'⟩, rfl⟩, ?_⟩
    rintro y hyu ⟨-, ⟨v', ⟨hv', hvu'⟩, rfl⟩, hyv'⟩
    obtain ⟨w', hw', hadj', hyw'⟩ := h.exists_adj hu hv' (Ne.symm hvu') hyu hyv'
    rwa [hleaf ⟨hw, hadj⟩ ⟨hw', hadj'⟩]
  · left
    rintro x hxu - ⟨v, hv, rfl⟩ hxv
    exact hshare ⟨x, hxu, v, hv, hxv⟩

/-- What remains of a join forest without a leaf is a join forest. -/
theorem diff_of_subsingleton (h : IsJoinForest vars S G) {u : V}
    (hleaf : {w | w ∈ S ∧ G.Adj u w}.Subsingleton) : IsJoinForest vars (S \ {u}) G where
  acyclic := by
    let i : ↥(S \ {u}) → S := fun v => ⟨v.1, v.2.1⟩
    have hi : Function.Injective i := fun v w hvw => Subtype.ext (congrArg (·.1) hvw)
    exact h.acyclic.embedding ⟨⟨i, hi⟩, Iff.rfl⟩
  connected := by
    intro x
    let H := G.induce {v | v ∈ S ∧ x ∈ vars v}
    have hkeep : (H.induce {v | v.1 ≠ u}).Preconnected := by
      refine (h.connected x).induce_of_degree_eq_one ?_
      intro v hv w hw w' hw'
      have hvu : v.1 = u := by simpa using hv
      refine Subtype.ext (hleaf ⟨w.2.1, ?_⟩ ⟨w'.2.1, ?_⟩)
      · rw [← hvu]
        exact hw
      · rw [← hvu]
        exact hw'
    let i : H.induce {v | v.1 ≠ u} →g G.induce {v | v ∈ S \ {u} ∧ x ∈ vars v} :=
      ⟨fun v => ⟨v.1.1, ⟨v.1.2.1, v.2⟩, v.1.2.2⟩, fun hadj => hadj⟩
    refine hkeep.map i ?_
    rintro ⟨v, ⟨hv, hvu⟩, hxv⟩
    exact ⟨⟨⟨v, hv, hxv⟩, hvu⟩, rfl⟩

theorem exists_leaf (h : IsJoinForest vars S G) (hS : S.Finite) (hne : S.Nonempty) :
    ∃ u ∈ S, IsEar (vars u) (vars '' (S \ {u})) ∧ IsJoinForest vars (S \ {u}) G := by
  have hfinite : Finite S := hS
  have hnonempty : Nonempty S := hne.to_subtype
  obtain ⟨⟨u, hu⟩, hleaf⟩ := exists_subsingleton_neighborSet h.acyclic
  have hsub : {w | w ∈ S ∧ G.Adj u w}.Subsingleton := by
    rintro w ⟨hw, hadj⟩ w' ⟨hw', hadj'⟩
    have heq : (⟨w, hw⟩ : S) = ⟨w', hw'⟩ := hleaf hadj hadj'
    exact congrArg Subtype.val heq
  exact ⟨u, hu, h.isEar_of_subsingleton hu hsub, h.diff_of_subsingleton hsub⟩

/-- The hyperedges of a join forest have no tangle: leaf after leaf is an ear,
and nothing has no tangle. -/
theorem tangle_eq_empty (hS : S.Finite) (h : IsJoinForest vars S G) {Y : Set α}
    (hY : IsTangle (vars '' S) Y) : Y = ∅ := by
  induction hn : S.ncard generalizing S with
  | zero =>
      rw [Set.ncard_eq_zero hS] at hn
      rw [hn, Set.image_empty] at hY
      exact hY.eq_empty_of_empty
  | succ n ih =>
      obtain ⟨u, hu, hear, hrest⟩ := h.exists_leaf hS (Set.nonempty_of_ncard_ne_zero (by omega))
      have hinsert : vars '' S = insert (vars u) (vars '' (S \ {u})) := by
        rw [← Set.image_insert_eq, Set.insert_sdiff_self_of_mem hu]
      rw [hinsert, isTangle_insert_iff hear] at hY
      refine ih (hS.subset Set.sdiff_subset) hrest hY ?_
      rw [Set.ncard_sdiff_singleton_of_mem hu]
      omega

/-! ### Paths -/

/-- A variable of both ends of a path is one of every node on it. -/
theorem mem_of_mem_support (h : IsJoinForest vars S G) (hG : G.IsAcyclic) {u v : V}
    (hu : u ∈ S) (hv : v ∈ S) {x : α} (hxu : x ∈ vars u) (hxv : x ∈ vars v)
    {p : G.Walk u v} (hp : p.IsPath) {w : V} (hw : w ∈ p.support) : x ∈ vars w := by
  classical
  obtain ⟨q⟩ := h.connected x ⟨u, hu, hxu⟩ ⟨v, hv, hxv⟩
  obtain ⟨q', hq'⟩ : ∃ q' : G.Walk u v, q'.support = q.support.map Subtype.val :=
    ⟨q.map (Embedding.induce _).toHom, q.support_map _⟩
  have hpq : p = q'.bypass :=
    congrArg Subtype.val ((hG.subsingleton_path u v).elim ⟨p, hp⟩ ⟨q'.bypass, q'.bypass_isPath⟩)
  rw [hpq] at hw
  have hq := q'.support_bypass_subset_support hw
  rw [hq'] at hq
  obtain ⟨⟨z, -, hxz⟩, -, rfl⟩ := List.mem_map.mp hq
  exact hxz

/-! ### Nodes and their sets -/

/-- If different nodes have different sets of variables, the sets themselves are
the nodes of a join forest. -/
theorem image (h : IsJoinForest vars S G) (hinj : Set.InjOn vars S) :
    ∃ H, IsJoinForest id (vars '' S) H := by
  rcases S.eq_empty_or_nonempty with rfl | ⟨v₀, -⟩
  · rw [Set.image_empty]
    exact ⟨⊥, ⟨isAcyclic_bot.induce _, fun x u => absurd u.2.1 (Set.notMem_empty _)⟩⟩
  have hnonempty : Nonempty V := ⟨v₀⟩
  let node : Set α → V := Function.invFunOn vars S
  have hnode : ∀ v ∈ S, node (vars v) = v := fun v hv => hinj.leftInvOn_invFunOn hv
  have hmem : ∀ s ∈ vars '' S, node s ∈ S ∧ vars (node s) = s := by
    rintro s ⟨v, hv, rfl⟩
    rw [hnode v hv]
    exact ⟨hv, rfl⟩
  refine ⟨G.comap node, ?_, ?_⟩
  · let i : (G.comap node).induce (vars '' S) →g G.induce S :=
      ⟨fun s => ⟨node s.1, (hmem s.1 s.2).1⟩, fun hadj => hadj⟩
    refine h.acyclic.comap i fun s t hst => Subtype.ext ?_
    rw [← (hmem s.1 s.2).2, ← (hmem t.1 t.2).2]
    exact congrArg vars (congrArg Subtype.val hst)
  · intro x
    let i : G.induce {v | v ∈ S ∧ x ∈ vars v} →g
        (G.comap node).induce {s | s ∈ vars '' S ∧ x ∈ id s} :=
      ⟨fun v => ⟨vars v.1, ⟨v.1, v.2.1, rfl⟩, v.2.2⟩, fun {u v} hadj => by
        change G.Adj (node (vars u.1)) (node (vars v.1))
        rw [hnode u.1 u.2.1, hnode v.1 v.2.1]
        exact hadj⟩
    refine (h.connected x).map i ?_
    rintro ⟨-, ⟨v, hv, rfl⟩, hx⟩
    exact ⟨⟨v, hv, hx⟩, rfl⟩

end IsJoinForest

/-! ### Ranks -/

/-- A graph has no cycle if its nodes have ranks so that neighbours differ in
rank and a node has at most one neighbour of higher rank: on a cycle, both
neighbours of a node of least rank would rank higher. -/
theorem isAcyclic_of_rank {G : SimpleGraph V} (rank : V → ℕ)
    (hne : ∀ u v, G.Adj u v → rank u ≠ rank v)
    (hunique : ∀ u v w, G.Adj u v → G.Adj u w → rank u < rank v → rank u < rank w → v = w) :
    G.IsAcyclic := by
  classical
  intro a c hc
  obtain ⟨m, hm, hleast⟩ := c.support.toFinset.exists_min_image rank
    ⟨a, List.mem_toFinset.mpr c.start_mem_support⟩
  rw [List.mem_toFinset] at hm
  have hleast : ∀ v ∈ (c.rotate m hm).support, rank m ≤ rank v := by
    intro v hv
    exact hleast v (List.mem_toFinset.mpr ((c.mem_support_rotate_iff m hm).mp hv))
  have hcycle := hc.rotate hm
  have hsnd := (c.rotate m hm).adj_snd hcycle.not_nil
  have hpenultimate := ((c.rotate m hm).adj_penultimate hcycle.not_nil).symm
  refine hcycle.snd_ne_penultimate (hunique m _ _ hsnd hpenultimate ?_ ?_)
  · exact lt_of_le_of_ne (hleast _ (Walk.getVert_mem_support _ _)) (hne _ _ hsnd)
  · exact lt_of_le_of_ne (hleast _ (Walk.getVert_mem_support _ _)) (hne _ _ hpenultimate)

end Conjunctive
