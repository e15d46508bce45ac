import Conjunctive.Evaluation.Basic
import Conjunctive.Proofs.Evaluation.Scan
import Conjunctive.Proofs.Forest.Links

/-!
# The batches at the nodes

The batch at a node is what was set there last. How often an assignment solves
the atoms of a node is the product of the numbers of matching rows; over all the
nodes of a query these products give the product over its atoms, ground atoms
aside.
-/

namespace Conjunctive

namespace NodeBatches

/-- Whether a node has a batch. -/
def Has (s : NodeBatches) (n : Hyperedge) : Prop := (s.find? n).isSome = true

/-- The batch at a node, or one without rows. -/
def batch (s : NodeBatches) (n : Hyperedge) : Batch :=
  (s.find? n).getD (Batch.empty (Head.ofVars []))

theorem get_eq {s : NodeBatches} {n : Hyperedge} (h : s.Has n) : s.get n = .ok (s.batch n) := by
  obtain ⟨b, hb⟩ := Option.isSome_iff_exists.mp h
  rw [batch, hb]
  unfold get
  rw [hb]
  rfl

theorem find?_cons (k : Hyperedge) (c : Batch) (entries : List (Hyperedge × Batch))
    (m : Hyperedge) : find? ⟨(k, c) :: entries⟩ m =
      if k.vertices = m.vertices then some c else find? ⟨entries⟩ m := by
  unfold find?
  by_cases hk : k.vertices = m.vertices <;> simp [hk]

theorem find?_replace (entries : List (Hyperedge × Batch)) (n : Hyperedge) (b : Batch)
    (m : Hyperedge) :
    find? ⟨entries.map fun p => if p.1.vertices == n.vertices then (p.1, b) else p⟩ m =
      if m.vertices = n.vertices then (find? ⟨entries⟩ m).map fun _ => b
      else find? ⟨entries⟩ m := by
  induction entries with
  | nil => simp [find?]
  | cons p entries ih =>
      obtain ⟨k, c⟩ := p
      rw [List.map_cons, find?_cons]
      by_cases hkn : k.vertices = n.vertices
      · have hhead : (if (k, c).1.vertices == n.vertices then ((k, c).1, b) else (k, c)) =
            (k, b) := by
          simp [hkn]
        rw [hhead, find?_cons, ih]
        by_cases hkm : k.vertices = m.vertices
        · simp [hkm, hkm.symm.trans hkn]
        · simp [hkm]
      · have hhead : (if (k, c).1.vertices == n.vertices then ((k, c).1, b) else (k, c)) =
            (k, c) := by
          simp [hkn]
        rw [hhead, find?_cons, ih]
        by_cases hkm : k.vertices = m.vertices
        · have hmn : m.vertices ≠ n.vertices := fun h => hkn (hkm.trans h)
          simp [hkm, hmn]
        · simp [hkm]

theorem find?_append_singleton (entries : List (Hyperedge × Batch)) (n : Hyperedge) (b : Batch)
    (m : Hyperedge) : find? ⟨entries ++ [(n, b)]⟩ m =
      (find? ⟨entries⟩ m).or (if m.vertices = n.vertices then some b else Option.none) := by
  induction entries with
  | nil =>
      rw [List.nil_append, find?_cons]
      by_cases hnm : n.vertices = m.vertices
      · simp [find?, hnm]
      · simp [find?, hnm, Ne.symm hnm]
  | cons p entries ih =>
      obtain ⟨k, c⟩ := p
      rw [List.cons_append, find?_cons, find?_cons, ih]
      split_ifs <;> rfl

/-- A batch that is set is found at its node, and at no other. -/
theorem find?_set (s : NodeBatches) (n : Hyperedge) (b : Batch) (m : Hyperedge) :
    (s.set n b).find? m = if m.vertices = n.vertices then some b else s.find? m := by
  have hsame : m.vertices = n.vertices → s.find? m = s.find? n := by
    intro h
    unfold find?
    rw [h]
  unfold set
  split_ifs with hhas hm hm
  · obtain ⟨c, hc⟩ := Option.isSome_iff_exists.mp hhas
    rw [find?_replace, if_pos hm, hsame hm, hc]
    rfl
  · rw [find?_replace, if_neg hm]
  · rw [find?_append_singleton, if_pos hm, hsame hm, Option.not_isSome_iff_eq_none.mp hhas]
    rfl
  · rw [find?_append_singleton, if_neg hm, Option.or_none]

theorem has_set_self (s : NodeBatches) (n : Hyperedge) (b : Batch) : (s.set n b).Has n := by
  rw [Has, find?_set, if_pos rfl]
  rfl

theorem batch_set_self (s : NodeBatches) (n : Hyperedge) (b : Batch) : (s.set n b).batch n = b := by
  rw [batch, find?_set, if_pos rfl]
  rfl

theorem has_set {s : NodeBatches} {n m : Hyperedge} {b : Batch} (h : s.Has m) :
    (s.set n b).Has m := by
  rw [Has, find?_set]
  split_ifs
  · rfl
  · exact h

theorem batch_set_of_ne {s : NodeBatches} {n m : Hyperedge} {b : Batch}
    (h : m.vertices ≠ n.vertices) : (s.set n b).batch m = s.batch m := by
  rw [batch, find?_set, if_neg h]
  rfl

end NodeBatches

/-! ### The atoms of the nodes -/

namespace Hyperedge

/-- How often an assignment solves the atoms of a node. -/
def own (n : Hyperedge) (σ : Assignment) : Nat := (n.atoms.map fun a => a.hits σ).prod

/-- The rows of a batch are among those that the atoms of a node give. -/
def Includes (n : Hyperedge) (b : Batch) : Prop :=
  ∃ own, scanAll n.atoms n.vertices = .ok own ∧ b.PartOf own

theorem Includes.filter {n : Hyperedge} {b : Batch} (h : n.Includes b) (p : Row → Bool) :
    n.Includes ⟨b.head, b.rows.filter p⟩ := by
  obtain ⟨own, hscan, hpart⟩ := h
  exact ⟨own, hscan, hpart.filter p⟩

end Hyperedge

namespace Hypergraph

/-- Every node has atoms, over exactly its vertices, that can be scanned. -/
def Loaded (g : Hypergraph) : Prop := ∀ n ∈ g, n.atoms ≠ [] ∧ Solvable n.atoms n.vertices

/-- What an assignment solves at a node is a matter of the vertices of the node. -/
theorem Loaded.own_congr {g : Hypergraph} (hg : g.Loaded) {n : Hyperedge} (hn : n ∈ g)
    {σ τ : Assignment} (h : ∀ v ∈ n.vertices, σ v = τ v) : n.own σ = n.own τ := by
  refine congrArg List.prod (List.map_congr_left fun a ha => Atom.hits_congr fun v hv => ?_)
  exact h v ((((hg n hn).2 a ha).2 v).mp hv)

end Hypergraph

namespace Query

/-- The atoms of a query that have variables. -/
def openAtoms (q : Query) : List Atom := q.body.filter fun a => !a.isGround

theorem loaded_ofQuery {q : Query} (hready : ∀ a ∈ q.body, a.Ready) :
    (Hypergraph.ofQuery q).Loaded := by
  have hmerges := Hypergraph.merges_ofQuery q
  intro n hn
  have hmem : ∀ a, a ∈ n.atoms ↔ a ∈ q.body ∧ n.vertexSet = a.variableSet := by
    intro a
    rw [hmerges.atoms_eq n hn, List.mem_filter, Hyperedge.sameSet_iff_vertexSet_eq]
  constructor
  · obtain ⟨a, ha, -, heq⟩ := hmerges.exists_atom n hn
    exact List.ne_nil_of_mem ((hmem a).mpr ⟨ha, heq⟩)
  · intro a ha
    obtain ⟨hbody, heq⟩ := (hmem a).mp ha
    refine ⟨hready a hbody, fun v => ?_⟩
    exact (Set.ext_iff.mp heq v).symm

/-- An atom with variables is in one node, a ground atom in none. -/
theorem map_filter_sameSet {q : Query} {a : Atom} (ha : a ∈ q.body) :
    ((Hypergraph.ofQuery q).filter fun n => Hyperedge.sameSet n.vertices a.vars).map (fun _ => a) =
      if a.isGround then [] else [a] := by
  have hmerges := Hypergraph.merges_ofQuery q
  have hdistinct : (Hypergraph.ofQuery q).Distinct := hmerges.distinct
  split_ifs with hground
  · rw [List.map_eq_nil_iff, List.filter_eq_nil_iff]
    intro n hn
    rw [Hyperedge.sameSet_iff_vertexSet_eq]
    exact hmerges.vertexSet_ne_of_isGround hn hground
  · obtain ⟨n, hn, heq⟩ := hmerges.covers a ha (by simpa using hground)
    have hone : (Hypergraph.ofQuery q).filter (fun n => Hyperedge.sameSet n.vertices a.vars) =
        [n] := by
      rw [← List.perm_singleton, List.perm_ext_iff_of_nodup (hdistinct.nodup.filter _)
        (List.nodup_singleton n)]
      intro m
      rw [List.mem_filter, Hyperedge.sameSet_iff_vertexSet_eq, List.mem_singleton]
      constructor
      · rintro ⟨hm, hma⟩
        exact hdistinct.eq_of_vertexSet_eq hm hn (hma.trans heq.symm)
      · rintro rfl
        exact ⟨hn, heq⟩
    rw [hone]
    rfl

/-- The nodes share the atoms of the query that have variables among them. -/
theorem perm_openAtoms (q : Query) :
    List.Perm ((Hypergraph.ofQuery q).flatMap Hyperedge.atoms) q.openAtoms := by
  have hatoms : (Hypergraph.ofQuery q).flatMap Hyperedge.atoms =
      (Hypergraph.ofQuery q).flatMap fun n =>
        (q.body.filter fun a => Hyperedge.sameSet n.vertices a.vars).map id := by
    apply List.flatMap_congr
    intro n hn
    rw [(Hypergraph.merges_ofQuery q).atoms_eq n hn, List.map_id]
  have hfilter : ∀ as : List Atom,
      (as.flatMap fun a => if a.isGround then [] else [a]) = as.filter fun a => !a.isGround := by
    intro as
    induction as with
    | nil => rfl
    | cons a as ih => by_cases ha : a.isGround = true <;> simp [ha, ih]
  rw [hatoms, openAtoms, ← hfilter]
  refine (perm_flatMap_filter _ _ _ _).trans (List.Perm.of_eq ?_)
  exact List.flatMap_congr fun a ha => map_filter_sameSet ha

/-- What assignments solve at all the nodes is what they solve in the atoms. -/
theorem prod_own (q : Query) (σ : Assignment) :
    ((Hypergraph.ofQuery q).map fun n => n.own σ).prod =
      (q.openAtoms.map fun a => a.hits σ).prod := by
  rw [← ((perm_openAtoms q).map fun a => a.hits σ).prod_eq, List.map_flatMap, List.flatMap,
    List.prod_flatten, List.map_map]
  rfl

end Query

end Conjunctive
