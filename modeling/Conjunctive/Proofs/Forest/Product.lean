import Conjunctive.Proofs.Forest.Links
import Mathlib.Algebra.BigOperators.Group.List.Basic

/-!
# Products over the trees

If each node multiplies what it has by itself with what its children have, then
the roots together have the product over all nodes. The proof follows the
removals that built the forest: an ear without children hands what it has over
to its witness.
-/

namespace Conjunctive

open Conjunctive.Hypergraph

theorem Forest.children_cons (r : Removal) (rs : List Removal) (n : Hyperedge) :
    (Forest.mk (r :: rs)).children n =
      (if r.witness.any (fun w => w.vertices == n.vertices) then [r.ear] else []) ++
        (Forest.mk rs).children n := by
  rw [children, children]
  by_cases hw : r.witness.any (fun w => w.vertices == n.vertices) = true <;> simp [hw]

/-- A factor at one node only. -/
theorem Hypergraph.Distinct.prod_ite {g : Hypergraph} (hg : g.Distinct) {p : Hyperedge} (hp : p ∈ g)
    (k : Nat) : (g.map fun n => if n.vertices = p.vertices then k else 1).prod = k := by
  have hothers : (others p g).map (fun n => if n.vertices = p.vertices then k else 1) =
      (others p g).map fun _ => 1 := by
    apply List.map_congr_left
    intro n hn
    rw [if_neg (mem_others.mp hn).2]
  rw [((hg.perm_others hp).map _).prod_eq, List.map_cons, List.prod_cons, if_pos rfl, hothers]
  simp

/-- An ear has no children left when it is removed. -/
theorem Hypergraph.Eliminates.children_ear {r : Removal} {rs : List Removal} {g : Hypergraph}
    (h : Eliminates (r :: rs) g []) : (Forest.mk (r :: rs)).children r.ear = [] := by
  obtain ⟨-, hw, hrest⟩ := h
  rw [Forest.children, List.map_eq_nil_iff, List.filter_eq_nil_iff]
  rintro ⟨e, w⟩ hmem hany
  rw [Option.any_eq_true] at hany
  obtain ⟨p, rfl, heq⟩ := hany
  have hp : p ∈ others r.ear g := by
    rcases List.mem_cons.mp hmem with heq | hmem
    · rw [← heq] at hw
      rw [← heq]
      exact hw.1
    · exact (hrest.mem_of_witness hmem).2
  exact (mem_others.mp hp).2 (by simpa using heq)

/-- What a node has by itself times what its children have, multiplied over the
ears without a witness, is what all nodes have by themselves. -/
theorem Hypergraph.Eliminates.prod_roots {rs : List Removal} {g : Hypergraph} (hg : g.Distinct)
    (h : Eliminates rs g []) {own total : Hyperedge → Nat}
    (htotal : ∀ n ∈ g, total n = own n * (((Forest.mk rs).children n).map total).prod) :
    ((rs.filter fun r => r.witness.isNone).map fun r => total r.ear).prod = (g.map own).prod := by
  induction rs generalizing g own with
  | nil =>
      cases h
      rfl
  | cons r rs ih =>
      have hear : total r.ear = own r.ear := by
        rw [htotal r.ear h.1, h.children_ear]
        simp
      obtain ⟨hc, hw, hrest⟩ := h
      have hothers : Distinct (others r.ear g) := hg.sublist (others_sublist r.ear g)
      have hsplit : (g.map own).prod = total r.ear * ((others r.ear g).map own).prod := by
        rw [((hg.perm_others hc).map own).prod_eq, List.map_cons, List.prod_cons, hear]
      obtain ⟨c, w⟩ := r
      cases w with
      | none =>
          have hrest_total : ∀ n ∈ others c g,
              total n = own n * (((Forest.mk rs).children n).map total).prod := by
            intro n hn
            rw [htotal n (mem_others.mp hn).1, Forest.children_cons]
            simp
          rw [hsplit, ← ih hothers hrest hrest_total]
          simp
      | some p =>
          -- the witness takes over the weight of the ear
          have hp : p ∈ others c g := hw.1
          have hrest_total : ∀ n ∈ others c g,
              total n = own n * (if n.vertices = p.vertices then total c else 1) *
                (((Forest.mk rs).children n).map total).prod := by
            intro n hn
            rw [htotal n (mem_others.mp hn).1, Forest.children_cons]
            by_cases hnp : n.vertices = p.vertices
            · simp [hnp, Nat.mul_assoc]
            · simp [hnp, Ne.symm hnp]
          have hmoved : ((others c g).map fun n =>
              own n * if n.vertices = p.vertices then total c else 1).prod =
                ((others c g).map own).prod * total c := by
            rw [List.prod_map_mul, hothers.prod_ite hp]
          have hnone : ((⟨c, some p⟩ :: rs).filter fun r => r.witness.isNone) =
              rs.filter fun r => r.witness.isNone := by
            simp
          rw [hnone, ih hothers hrest hrest_total, hmoved, hsplit, Nat.mul_comm]

namespace Forest

theorem Spans.perm_roots {f : Forest} {g : Hypergraph} (h : f.Spans g) :
    List.Perm f.roots ((f.removals.filter fun r => r.witness.isNone).map Removal.ear) := by
  have hnodup : (f.removals.map Removal.ear).Nodup :=
    (h.eliminates.perm_ears h.distinct).nodup_iff.mpr h.distinct.nodup
  refine (List.perm_ext_iff_of_nodup (h.nodup_nodes.filter _)
    (hnodup.sublist (List.Sublist.map _ List.filter_sublist))).mpr fun n => ?_
  rw [List.mem_map]
  constructor
  · intro hn
    obtain ⟨hg, hroot⟩ := h.mem_roots_iff.mp hn
    obtain ⟨⟨c, w⟩, hr, rfl⟩ := h.mem_iff_ear.mp hg
    refine ⟨_, List.mem_filter.mpr ⟨hr, ?_⟩, rfl⟩
    cases w with
    | none => rfl
    | some p => exact absurd hr (hroot p)
  · rintro ⟨⟨c, w⟩, hr, rfl⟩
    obtain ⟨hr, hnone⟩ := List.mem_filter.mp hr
    cases w with
    | none =>
        refine h.mem_roots_iff.mpr ⟨h.mem_iff_ear.mpr ⟨_, hr, rfl⟩, fun p hlink => ?_⟩
        have heq := h.eliminates.eq_of_ear_eq h.distinct hr hlink rfl
        cases heq
    | some p => cases hnone

theorem Spans.prod_roots {f : Forest} {g : Hypergraph} (h : f.Spans g) {own total : Hyperedge → Nat}
    (htotal : ∀ n ∈ g, total n = own n * ((f.children n).map total).prod) :
    (f.roots.map total).prod = (g.map own).prod := by
  rw [(h.perm_roots.map total).prod_eq, List.map_map, ← h.eliminates.prod_roots h.distinct htotal]
  rfl

end Forest

end Conjunctive
