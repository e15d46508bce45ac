import Conjunctive.Proofs.Batch.Join
import Conjunctive.Proofs.Batch.Projection

/-!
# Weights of assignments

An assignment gives every variable a value. Its weight in a batch is the number
of rows that have its values in all columns. The batches of an evaluation are
clean: each of their rows has the values of some assignment. On clean batches a
join multiplies weights, a semijoin keeps a weight or drops it to zero, and a
projection that keeps all variables changes nothing.
-/

namespace Conjunctive

/-- A value for each variable. -/
abbrev Assignment := String → Denotation

theorem mem_zip_map_iff {vars : List String} {σ : Assignment} {v : String} {d : Denotation} :
    (v, d) ∈ vars.zip (vars.map σ) ↔ v ∈ vars ∧ d = σ v := by
  induction vars with
  | nil => simp
  | cons w vars ih =>
      rw [List.map_cons, List.zip_cons_cons, List.mem_cons, ih, List.mem_cons, Prod.mk.injEq]
      constructor
      · rintro (⟨rfl, rfl⟩ | ⟨hv, rfl⟩)
        · exact ⟨Or.inl rfl, rfl⟩
        · exact ⟨Or.inr hv, rfl⟩
      · rintro ⟨rfl | hv, rfl⟩
        · exact Or.inl ⟨rfl, rfl⟩
        · exact Or.inr ⟨hv, rfl⟩

/-- Rows with the values of two assignments are compatible if these agree on the
shared variables. -/
theorem Row.compatible_iff_of_eq_map {vars vars' : List String} {r s : Row} {σ τ : Assignment}
    (hr : r.denotation = vars.map σ) (hs : s.denotation = vars'.map τ) :
    compatible vars vars' r s = true ↔ ∀ v ∈ vars, v ∈ vars' → σ v = τ v := by
  rw [compatible_iff_values, hr, hs]
  simp only [List.mem_append, mem_zip_map_iff]
  constructor
  · intro h v hv hv'
    exact h v hv hv' _ _ (Or.inl ⟨hv, rfl⟩) (Or.inr ⟨hv', rfl⟩)
  · intro h v hv hv' d e hd he
    have heq := h v hv hv'
    rcases hd with ⟨-, rfl⟩ | ⟨-, rfl⟩ <;> rcases he with ⟨-, rfl⟩ | ⟨-, rfl⟩
    · rfl
    · exact heq
    · exact heq.symm
    · rfl

namespace Batch

open Row

/-- Each row has the values of an assignment, and its cells are keys and numbers if they are
floats. -/
structure Clean (b : Batch) : Prop where
  coherent : ∀ r ∈ b.rows, ∃ σ : Assignment, r.denotation = b.head.vars.map σ
  comparable : ∀ r ∈ b.rows, ∀ v ∈ r, v.isComparable = true

/-- How many rows have the values of an assignment. -/
def weight (b : Batch) (σ : Assignment) : Nat :=
  b.rows.countP fun r => r.denotation = b.head.vars.map σ

theorem Clean.regular {b : Batch} (h : b.Clean) : b.Regular where
  wellShaped := by
    intro r hr
    obtain ⟨σ, hσ⟩ := h.coherent r hr
    have hlength := congrArg List.length hσ
    rwa [Row.denotation_length, List.length_map] at hlength
  comparable := h.comparable

theorem Clean.filter {b : Batch} (h : b.Clean) (p : Row → Bool) :
    Clean ⟨b.head, b.rows.filter p⟩ where
  coherent := fun r hr => h.coherent r (List.mem_filter.mp hr).1
  comparable := fun r hr => h.comparable r (List.mem_filter.mp hr).1

/-- A batch has some of the rows of another, in their order and under the same head. -/
structure PartOf (b own : Batch) : Prop where
  head_eq : b.head = own.head
  rows_sublist : b.rows.Sublist own.rows

theorem PartOf.refl (b : Batch) : b.PartOf b := ⟨rfl, List.Sublist.refl _⟩

theorem PartOf.filter {b own : Batch} (h : b.PartOf own) (p : Row → Bool) :
    PartOf ⟨b.head, b.rows.filter p⟩ own :=
  ⟨h.head_eq, List.filter_sublist.trans h.rows_sublist⟩

theorem weight_pos_iff {b : Batch} {σ : Assignment} :
    0 < b.weight σ ↔ ∃ r ∈ b.rows, r.denotation = b.head.vars.map σ := by
  rw [weight, List.countP_pos_iff]
  simp only [decide_eq_true_iff]

/-- A weight depends on the variables of the batch only. -/
theorem weight_congr {b : Batch} {σ τ : Assignment} (h : ∀ v ∈ b.head.vars, σ v = τ v) :
    b.weight σ = b.weight τ := by
  rw [weight, weight, List.map_congr_left h]

/-- A clean batch has rows if and only if some assignment has weight. -/
theorem Clean.rows_ne_nil_iff {b : Batch} (h : b.Clean) : b.rows ≠ [] ↔ ∃ σ, 0 < b.weight σ := by
  constructor
  · intro hne
    obtain ⟨r, hr⟩ := List.exists_mem_of_ne_nil _ hne
    obtain ⟨σ, hσ⟩ := h.coherent r hr
    exact ⟨σ, weight_pos_iff.mpr ⟨r, hr, hσ⟩⟩
  · rintro ⟨σ, hσ⟩
    obtain ⟨r, hr, -⟩ := weight_pos_iff.mp hσ
    exact List.ne_nil_of_mem hr

/-! ### Semijoins -/

/-- Whether some row of a batch agrees with an assignment on given variables. -/
def Meets (b : Batch) (vars : List String) (σ : Assignment) : Prop :=
  ∃ τ, (∀ v ∈ vars, v ∈ b.head.vars → σ v = τ v) ∧ 0 < b.weight τ

theorem meets_of_weight_pos {b : Batch} {σ : Assignment} (h : 0 < b.weight σ)
    (vars : List String) : b.Meets vars σ := ⟨σ, fun _ _ _ => rfl, h⟩

theorem any_compatible_iff {b : Batch} (hb : b.Clean) {vars : List String} {r : Row}
    {σ : Assignment} (hr : r.denotation = vars.map σ) :
    b.rows.any (compatible vars b.head.vars r) = true ↔ b.Meets vars σ := by
  rw [List.any_eq_true]
  constructor
  · rintro ⟨s, hs, hcompatible⟩
    obtain ⟨τ, hτ⟩ := hb.coherent s hs
    exact ⟨τ, (compatible_iff_of_eq_map hr hτ).mp hcompatible, weight_pos_iff.mpr ⟨s, hs, hτ⟩⟩
  · rintro ⟨τ, hagree, hpos⟩
    obtain ⟨s, hs, hτ⟩ := weight_pos_iff.mp hpos
    exact ⟨s, hs, (compatible_iff_of_eq_map hr hτ).mpr hagree⟩

/-- A filter that tests a property of assignments keeps a weight or drops it. -/
theorem weight_filter {b : Batch} {p : Row → Bool} {P : Prop} [Decidable P] {σ : Assignment}
    (h : ∀ r ∈ b.rows, r.denotation = b.head.vars.map σ → (p r = true ↔ P)) :
    weight ⟨b.head, b.rows.filter p⟩ σ = if P then b.weight σ else 0 := by
  rw [weight, List.countP_filter]
  split_ifs with hP
  · apply List.countP_congr
    intro r hr
    rw [Bool.and_eq_true, decide_eq_true_iff]
    constructor
    · exact And.left
    · intro heq
      exact ⟨heq, (h r hr heq).mpr hP⟩
  · rw [List.countP_eq_zero]
    intro r hr hcontra
    rw [Bool.and_eq_true, decide_eq_true_iff] at hcontra
    exact hP ((h r hr hcontra.1).mp hcontra.2)

/-- Part of a clean batch that lacks no weight is all of it. -/
theorem PartOf.eq_of_weight_eq {b own : Batch} (h : b.PartOf own) (hown : own.Clean)
    (hweight : ∀ σ, b.weight σ = own.weight σ) : b = own := by
  obtain ⟨head, rows⟩ := b
  obtain ⟨rfl, hsublist⟩ := h
  refine congrArg (Batch.mk own.head) (eq_of_sublist_of_countP hsublist fun r hr => ?_)
  obtain ⟨σ, hσ⟩ := hown.coherent r hr
  exact ⟨fun t => t.denotation = own.head.vars.map σ, by simpa using hσ, hweight σ⟩

/-- Part of a clean batch that keeps some weights and drops the others has just the
rows to which the weights kept belong. -/
theorem PartOf.eq_filter {b own : Batch} (h : b.PartOf own) (hown : own.Clean) {p : Row → Bool}
    {P : Assignment → Prop} [DecidablePred P]
    (hp : ∀ r ∈ own.rows, ∀ σ, r.denotation = own.head.vars.map σ → (p r = true ↔ P σ))
    (hweight : ∀ σ, b.weight σ = if P σ then own.weight σ else 0) :
    b = ⟨own.head, own.rows.filter p⟩ := by
  have hkept : ∀ r ∈ b.rows, p r = true := by
    intro r hr
    have hmem := h.rows_sublist.subset hr
    obtain ⟨σ, hσ⟩ := hown.coherent r hmem
    rw [hp r hmem σ hσ]
    by_contra hnot
    have hpos : 0 < b.weight σ := weight_pos_iff.mpr ⟨r, hr, h.head_eq ▸ hσ⟩
    rw [hweight, if_neg hnot] at hpos
    exact lt_irrefl 0 hpos
  have hpart : b.PartOf ⟨own.head, own.rows.filter p⟩ := by
    refine ⟨h.head_eq, ?_⟩
    have hsublist := h.rows_sublist.filter p
    rwa [List.filter_eq_self.mpr hkept] at hsublist
  refine hpart.eq_of_weight_eq (hown.filter p) fun σ => ?_
  rw [hweight, weight_filter fun r hr hσ => hp r hr σ hσ]

/-! ### Joins -/

theorem append_eq_map_iff {a b : Batch} (ha : a.Clean) {r : Row} (hr : r ∈ a.rows) (s : Row)
    (σ : Assignment) : Row.denotation (r ++ s) = (a.head.append b.head).vars.map σ ↔
      r.denotation = a.head.vars.map σ ∧ s.denotation = b.head.vars.map σ := by
  have hlength : r.denotation.length = (a.head.vars.map σ).length := by
    rw [Row.denotation_length, List.length_map]
    exact ha.regular.wellShaped r hr
  rw [Head.append, List.map_append, Row.denotation_append]
  exact List.append_eq_append_iff_of_size_eq_left hlength

/-- The rows that go on from a row with the values of an assignment, if this row
has them too. -/
theorem countP_append {a b : Batch} (ha : a.Clean) {r : Row} (hr : r ∈ a.rows)
    (rows : List Row) (σ : Assignment) :
    (rows.map fun s => r ++ s).countP
      (fun t => t.denotation = (a.head.append b.head).vars.map σ) =
      if r.denotation = a.head.vars.map σ then
        rows.countP fun s => s.denotation = b.head.vars.map σ
      else 0 := by
  rw [List.countP_map]
  split_ifs with heq
  · apply List.countP_congr
    intro s _
    simp only [Function.comp_apply, append_eq_map_iff ha hr, heq, true_and]
  · rw [List.countP_eq_zero]
    intro s _ hs
    simp only [Function.comp_apply, append_eq_map_iff ha hr, decide_eq_true_iff] at hs
    exact heq hs.1

/-- The partners of a row with the values of an assignment, if they have them too. -/
theorem countP_partners {a b : Batch} (ha : a.Clean) {r : Row} (hr : r ∈ a.rows)
    (σ : Assignment) :
    ((b.rows.filter (compatible a.head.vars b.head.vars r)).map fun s => r ++ s).countP
      (fun t => t.denotation = (a.head.append b.head).vars.map σ) =
      if r.denotation = a.head.vars.map σ then b.weight σ else 0 := by
  rw [countP_append ha hr]
  split_ifs with heq
  · rw [List.countP_filter, weight]
    apply List.countP_congr
    intro s _
    rw [Bool.and_eq_true, and_iff_left_iff_imp, decide_eq_true_iff]
    intro hs
    exact (compatible_iff_of_eq_map heq hs).mpr fun _ _ _ => rfl
  · rfl

/-- A join multiplies weights. -/
theorem weight_joined {a b : Batch} (ha : a.Clean) (σ : Assignment) :
    weight ⟨a.head.append b.head, a.joined b⟩ σ = a.weight σ * b.weight σ := by
  rw [weight, (perm_joined a b).countP_eq, weight]
  apply countP_flatMap_eq_mul
  intro r hr
  rw [countP_partners ha hr σ]
  simp only [decide_eq_true_iff]

/-- Compatible values for two lists of variables are values for both together. -/
theorem exists_eq_map_append {vars vars' : List String} {r s : Row} {σ τ : Assignment}
    (hr : r.denotation = vars.map σ) (hs : s.denotation = vars'.map τ)
    (h : ∀ v ∈ vars, v ∈ vars' → σ v = τ v) :
    ∃ ρ : Assignment, Row.denotation (r ++ s) = (vars ++ vars').map ρ := by
  classical
  refine ⟨fun v => if v ∈ vars then σ v else τ v, ?_⟩
  rw [Row.denotation_append, List.map_append]
  refine congrArg₂ _ (hr.trans (List.map_congr_left fun v hv => ?_))
    (hs.trans (List.map_congr_left fun v hv' => ?_))
  · rw [if_pos hv]
  · split_ifs with hv
    · exact (h v hv hv').symm
    · rfl

theorem Clean.joined {a b : Batch} (ha : a.Clean) (hb : b.Clean) :
    Clean ⟨a.head.append b.head, a.joined b⟩ where
  coherent := by
    intro t ht
    obtain ⟨r, hr, s, hs, hcompatible, rfl⟩ := mem_joined.mp ht
    obtain ⟨σ, hσ⟩ := ha.coherent r hr
    obtain ⟨τ, hτ⟩ := hb.coherent s hs
    exact exists_eq_map_append hσ hτ ((compatible_iff_of_eq_map hσ hτ).mp hcompatible)
  comparable := by
    intro t ht v hv
    obtain ⟨r, hr, s, hs, -, rfl⟩ := mem_joined.mp ht
    rcases List.mem_append.mp hv with hv | hv
    · exact ha.comparable r hr v hv
    · exact hb.comparable s hs v hv

/-! ### Products -/

/-- The batch without variables that has the empty row. -/
theorem clean_unit : Clean ⟨Head.ofVars [], [[]]⟩ := by
  constructor
  · intro r hr
    rw [List.mem_singleton.mp hr]
    exact ⟨fun _ => .nothing, rfl⟩
  · intro r hr v hv
    rw [List.mem_singleton.mp hr] at hv
    cases hv

theorem weight_product {a b : Batch} (ha : a.Clean) (σ : Assignment) :
    (a.product b).weight σ = a.weight σ * b.weight σ := by
  rw [weight, weight, product]
  apply countP_flatMap_eq_mul
  intro r hr
  rw [countP_append ha hr]
  simp only [decide_eq_true_iff, weight]

/-- A product of batches without a common variable is clean. -/
theorem Clean.product {a b : Batch} (ha : a.Clean) (hb : b.Clean)
    (hdisjoint : ∀ v ∈ a.head.vars, v ∉ b.head.vars) : (a.product b).Clean where
  coherent := by
    intro t ht
    obtain ⟨r, hr, ht⟩ := List.mem_flatMap.mp ht
    obtain ⟨s, hs, rfl⟩ := List.mem_map.mp ht
    obtain ⟨σ, hσ⟩ := ha.coherent r hr
    obtain ⟨τ, hτ⟩ := hb.coherent s hs
    exact exists_eq_map_append hσ hτ fun v hv hv' => absurd hv' (hdisjoint v hv)
  comparable := by
    intro t ht v hv
    obtain ⟨r, hr, ht⟩ := List.mem_flatMap.mp ht
    obtain ⟨s, hs, rfl⟩ := List.mem_map.mp ht
    rcases List.mem_append.mp hv with hv | hv
    · exact ha.comparable r hr v hv
    · exact hb.comparable s hs v hv

/-! ### Projections -/

/-- The restriction of a row has the values of its assignment. -/
theorem denotation_restrict {vars keep : List String} {σ : Assignment} {r : Row}
    (hr : r.denotation = vars.map σ) :
    Row.denotation (r.restrict vars keep) = (keep.filter vars.contains).map σ := by
  induction keep with
  | nil => rfl
  | cons v keep ih =>
      have hlookup : (List.lookup v (vars.zip r)).map Value.denotation =
          if v ∈ vars then some (σ v) else none := by
        rw [map_lookup_zip, ← lookup_zip_map, ← hr]
        rfl
      by_cases hv : v ∈ vars
      · rw [if_pos hv, Option.map_eq_some_iff] at hlookup
        obtain ⟨x, hx, hden⟩ := hlookup
        rw [List.filter_cons_of_pos (by simpa using hv), List.map_cons, ← ih, ← hden,
          Row.restrict, List.filterMap_cons, hx]
        rfl
      · rw [if_neg hv, Option.map_eq_none_iff] at hlookup
        rw [List.filter_cons_of_neg (by simpa using hv), ← ih, Row.restrict, List.filterMap_cons,
          hlookup]
        rfl

theorem Clean.restricted {b : Batch} (h : b.Clean) (keep : List String) :
    (b.restricted keep).Clean where
  coherent := by
    intro t ht
    obtain ⟨r, hr, rfl⟩ := List.mem_map.mp ht
    obtain ⟨σ, hσ⟩ := h.coherent r hr
    exact ⟨σ, denotation_restrict hσ⟩
  comparable := by
    intro t ht v hv
    obtain ⟨r, hr, rfl⟩ := List.mem_map.mp ht
    exact h.comparable r hr v (mem_of_mem_restrict hv)

/-- A projection that keeps all variables keeps all weights. -/
theorem weight_restricted {b : Batch} (hb : b.Clean) {keep : List String}
    (hkeep : ∀ v ∈ b.head.vars, v ∈ keep) (σ : Assignment) :
    (b.restricted keep).weight σ = b.weight σ := by
  rw [weight, restricted, List.countP_map, weight]
  apply List.countP_congr
  intro r hr
  obtain ⟨τ, hτ⟩ := hb.coherent r hr
  rw [Function.comp_apply, decide_eq_true_iff, decide_eq_true_iff, denotation_restrict hτ, hτ,
    List.map_inj_left, List.map_inj_left]
  constructor
  · intro h v hv
    exact h v (List.mem_filter.mpr ⟨hkeep v hv, by simpa using hv⟩)
  · intro h v hv
    exact h v (by simpa using (List.mem_filter.mp hv).2)

end Batch

end Conjunctive
