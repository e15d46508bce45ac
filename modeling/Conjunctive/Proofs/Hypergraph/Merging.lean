import Conjunctive.Hypergraph.Basic
import Conjunctive.Proofs.Lists
import Mathlib.Data.List.Induction

/-!
# The hyperedges of a list of atoms

Atoms are added one by one, and an atom joins the hyperedge over its variables
if there is one. `Hypergraph.Merges g atoms` is what this keeps: different
hyperedges have different sets of vertices, and the atoms of a hyperedge are
all those of the list that have exactly its vertices, in the order of the list.
-/

namespace Conjunctive

namespace Atom

def variableSet (a : Atom) : Set String := {v | v ∈ a.vars}

theorem nodup_vars (a : Atom) : a.vars.Nodup := nodup_eraseDups _

theorem mem_vars_iff {a : Atom} {v : String} : v ∈ a.vars ↔ Term.variable v ∈ a.terms := by
  rw [vars, List.mem_eraseDups, List.mem_filterMap]
  constructor
  · rintro ⟨t, ht, hv⟩
    rcases t with w | c
    · cases hv
      exact ht
    · cases hv
  · intro h
    exact ⟨_, h, rfl⟩

theorem isGround_eq_false_iff {a : Atom} : a.isGround = false ↔ a.vars ≠ [] := by
  rw [isGround, List.isEmpty_eq_false_iff]

end Atom

namespace Hyperedge

def vertexSet (e : Hyperedge) : Set String := {v | v ∈ e.vertices}

theorem contains_iff {e : Hyperedge} {v : String} : e.contains v = true ↔ v ∈ e.vertices := by
  simp [contains]

theorem sameSet_iff {us vs : List String} :
    sameSet us vs = true ↔ ∀ v, v ∈ us ↔ v ∈ vs := by
  simp only [sameSet, Bool.and_eq_true, List.all_eq_true, List.contains_iff_mem]
  constructor
  · rintro ⟨h, k⟩ v
    exact ⟨h v, k v⟩
  · intro h
    exact ⟨fun v => (h v).mp, fun v => (h v).mpr⟩

theorem sameSet_iff_vertexSet_eq {e : Hyperedge} {a : Atom} :
    sameSet e.vertices a.vars = true ↔ e.vertexSet = a.variableSet := by
  rw [sameSet_iff, Set.ext_iff]
  rfl

end Hyperedge

namespace Hypergraph

open Hyperedge

/-- The hyperedges are those of a list of atoms: one for each set of variables
that some atom has, with the atoms that have it. -/
structure Merges (g : Hypergraph) (atoms : List Atom) : Prop where
  distinct : List.Pairwise (fun e f => e.vertexSet ≠ f.vertexSet) g
  nodup : ∀ e ∈ g, e.vertices.Nodup
  atoms_eq : ∀ e ∈ g, e.atoms = atoms.filter fun a => sameSet e.vertices a.vars
  exists_atom : ∀ e ∈ g, ∃ a ∈ atoms, a.isGround = false ∧ e.vertexSet = a.variableSet
  covers : ∀ a ∈ atoms, a.isGround = false → ∃ e ∈ g, e.vertexSet = a.variableSet

theorem merges_nil : Merges [] [] := by
  constructor <;> simp

/-- A ground atom has the vertices of no hyperedge. -/
theorem Merges.vertexSet_ne_of_isGround {g : Hypergraph} {atoms : List Atom}
    (h : g.Merges atoms) {e : Hyperedge} (he : e ∈ g) {a : Atom} (ha : a.isGround = true) :
    e.vertexSet ≠ a.variableSet := by
  obtain ⟨b, -, hb, heb⟩ := h.exists_atom e he
  obtain ⟨v, hv⟩ := List.exists_mem_of_ne_nil _ (Atom.isGround_eq_false_iff.mp hb)
  intro hea
  have hva : v ∈ a.vars := by
    change v ∈ a.variableSet
    rw [← hea, heb]
    exact hv
  rw [Atom.isGround, List.isEmpty_iff] at ha
  rw [ha] at hva
  cases hva

theorem Merges.insert_of_isGround {g : Hypergraph} {atoms : List Atom} (h : g.Merges atoms)
    {a : Atom} (ha : a.isGround = true) : g.Merges (atoms ++ [a]) where
  distinct := h.distinct
  nodup := h.nodup
  atoms_eq := by
    intro e he
    have hne : ¬ sameSet e.vertices a.vars = true := by
      rw [sameSet_iff_vertexSet_eq]
      exact h.vertexSet_ne_of_isGround he ha
    simp [h.atoms_eq e he, hne]
  exists_atom := by
    intro e he
    obtain ⟨b, hb, hbg, heb⟩ := h.exists_atom e he
    exact ⟨b, by simp [hb], hbg, heb⟩
  covers := by
    intro b hb hbg
    rcases List.mem_append.mp hb with hb | hb
    · exact h.covers b hb hbg
    · rw [List.mem_singleton] at hb
      rw [hb, ha] at hbg
      cases hbg

/-- An atom whose variables form a hyperedge is added to the atoms of that one. -/
theorem Merges.insert_of_any {g : Hypergraph} {atoms : List Atom} (h : g.Merges atoms)
    {a : Atom} (hany : ∃ e ∈ g, e.vertexSet = a.variableSet) :
    Merges (g.map fun e =>
      if sameSet e.vertices a.vars then { e with atoms := e.atoms ++ [a] } else e)
      (atoms ++ [a]) := by
  have hvertices : ∀ e : Hyperedge,
      (if sameSet e.vertices a.vars then { e with atoms := e.atoms ++ [a] } else e).vertices
        = e.vertices := by
    intro e
    split <;> rfl
  have hset : ∀ e : Hyperedge,
      (if sameSet e.vertices a.vars then { e with atoms := e.atoms ++ [a] } else e).vertexSet
        = e.vertexSet := by
    intro e
    simp only [vertexSet, hvertices]
  constructor
  · rw [List.pairwise_map]
    simp only [hset]
    exact h.distinct
  · simp only [List.forall_mem_map, hvertices]
    exact h.nodup
  · simp only [List.forall_mem_map, hvertices]
    intro e he
    by_cases hs : sameSet e.vertices a.vars = true
    · simp [hs, h.atoms_eq e he]
    · simp [hs, h.atoms_eq e he]
  · simp only [List.forall_mem_map, hset]
    intro e he
    obtain ⟨b, hb, hbg, heb⟩ := h.exists_atom e he
    exact ⟨b, by simp [hb], hbg, heb⟩
  · intro b hb hbg
    have hold : ∃ e ∈ g, e.vertexSet = b.variableSet := by
      rcases List.mem_append.mp hb with hb | hb
      · exact h.covers b hb hbg
      · rw [List.mem_singleton.mp hb]
        exact hany
    obtain ⟨e, he, heb⟩ := hold
    exact ⟨_, List.mem_map_of_mem he, (hset e).trans heb⟩

/-- Variables that form no hyperedge are those of no atom so far. -/
theorem Merges.filter_eq_nil {g : Hypergraph} {atoms : List Atom} (h : g.Merges atoms)
    {a : Atom} (ha : a.isGround = false) (hnew : ∀ e ∈ g, e.vertexSet ≠ a.variableSet) :
    atoms.filter (fun b => sameSet a.vars b.vars) = [] := by
  rw [List.filter_eq_nil_iff]
  intro b hb hab
  have hset : a.variableSet = b.variableSet := by
    ext v
    exact (sameSet_iff.mp hab) v
  have hbg : b.isGround = false := by
    rw [Atom.isGround_eq_false_iff]
    obtain ⟨v, hv⟩ := List.exists_mem_of_ne_nil _ (Atom.isGround_eq_false_iff.mp ha)
    exact List.ne_nil_of_mem (((sameSet_iff.mp hab) v).mp hv)
  obtain ⟨e, he, heb⟩ := h.covers b hb hbg
  exact hnew e he (heb.trans hset.symm)

/-- An atom with variables that form no hyperedge yet gets one of its own. -/
theorem Merges.insert_new {g : Hypergraph} {atoms : List Atom} (h : g.Merges atoms)
    {a : Atom} (ha : a.isGround = false)
    (hnew : ∀ e ∈ g, e.vertexSet ≠ a.variableSet) :
    Merges (g ++ [⟨a.vars, [a]⟩]) (atoms ++ [a]) where
  distinct := by
    rw [List.pairwise_append]
    refine ⟨h.distinct, List.pairwise_singleton _ _, ?_⟩
    intro e he f hf
    rw [List.mem_singleton.mp hf]
    exact hnew e he
  nodup := by
    intro e he
    rcases List.mem_append.mp he with he | he
    · exact h.nodup e he
    · rw [List.mem_singleton.mp he]
      exact a.nodup_vars
  atoms_eq := by
    intro e he
    rcases List.mem_append.mp he with he | he
    · have hne : ¬ sameSet e.vertices a.vars = true := by
        rw [sameSet_iff_vertexSet_eq]
        exact hnew e he
      simp [h.atoms_eq e he, hne]
    · rw [List.mem_singleton.mp he]
      have hself : sameSet a.vars a.vars = true := by simp [sameSet_iff]
      simp [h.filter_eq_nil ha hnew, hself]
  exists_atom := by
    intro e he
    rcases List.mem_append.mp he with he | he
    · obtain ⟨b, hb, hbg, heb⟩ := h.exists_atom e he
      exact ⟨b, by simp [hb], hbg, heb⟩
    · rw [List.mem_singleton.mp he]
      exact ⟨a, by simp, ha, rfl⟩
  covers := by
    intro b hb hbg
    rcases List.mem_append.mp hb with hb | hb
    · obtain ⟨e, he, heb⟩ := h.covers b hb hbg
      exact ⟨e, by simp [he], heb⟩
    · rw [List.mem_singleton] at hb
      rw [hb]
      exact ⟨⟨a.vars, [a]⟩, by simp, rfl⟩

theorem Merges.insert {g : Hypergraph} {atoms : List Atom} (h : g.Merges atoms) (a : Atom) :
    (g.insert a).Merges (atoms ++ [a]) := by
  unfold Hypergraph.insert
  split_ifs with hg hany
  · exact h.insert_of_isGround hg
  · simp only [List.any_eq_true, sameSet_iff_vertexSet_eq] at hany
    exact h.insert_of_any hany
  · simp only [List.any_eq_true, sameSet_iff_vertexSet_eq, not_exists, not_and] at hany
    exact h.insert_new (by simpa using hg) hany

/-- The hyperedges of a list of atoms are as they should be. -/
theorem merges_ofAtoms (atoms : List Atom) : (ofAtoms atoms).Merges atoms := by
  induction atoms using List.reverseRecOn with
  | nil => exact merges_nil
  | append_singleton atoms a ih =>
      rw [ofAtoms, List.foldl_append]
      exact ih.insert a

theorem merges_ofQuery (q : Query) : (ofQuery q).Merges q.body := merges_ofAtoms q.body

end Hypergraph

end Conjunctive
