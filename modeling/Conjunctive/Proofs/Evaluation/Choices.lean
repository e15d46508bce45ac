import Conjunctive.Proofs.Evaluation.Nodes
import Mathlib.Data.List.Sections

/-!
# Answers by choosing rows

What a query asks for can be said without any evaluation: choose one row for
each atom, and see whether one assignment makes all atoms match their rows. A
row is an answer as often as there are such choices that give the variables of
the head its values (`Query.multiplicity`). This is computed by trying all
choices.

A clean batch over the variables of some atoms, in which every assignment weighs
as much as there are choices for it, has these multiplicities when it is
restricted to some of its variables (`count_restricted`).
-/

namespace Conjunctive

/-- The choices of one row for each of some atoms. -/
def choices (as : List Atom) : List (List Row) := (as.map Atom.rows).sections

/-- Whether rows chosen for some atoms give a row: under one assignment all atoms
match, and the variables have the values of the row. -/
def Gives (as : List Atom) (vars : List String) (t : Row) (choice : List Row) : Prop :=
  ∃ σ : Assignment, List.Forall₂ (Atom.Matches σ) as choice ∧ t.denotation = vars.map σ

/-! ### Deciding whether a choice gives a row -/

theorem forall₂_append_iff {α β : Type} {R : α → β → Prop} {as as' : List α} {bs bs' : List β}
    (h : as.length = bs.length) :
    List.Forall₂ R (as ++ as') (bs ++ bs') ↔ List.Forall₂ R as bs ∧ List.Forall₂ R as' bs' := by
  induction as generalizing bs with
  | nil =>
      rw [List.length_eq_zero_iff.mp h.symm]
      simp
  | cons a as ih =>
      cases bs with
      | nil => cases h
      | cons b bs =>
          rw [List.cons_append, List.cons_append, List.forall₂_cons, List.forall₂_cons,
            ih (Nat.succ.inj h), and_assoc]

/-- The terms of several atoms take the cells of several rows one after the other. -/
theorem forall₂_matches_iff {as : List Atom} {choice : List Row}
    (h : List.Forall₂ (fun (a : Atom) (row : Row) => a.terms.length = row.length) as choice)
    (σ : Assignment) : List.Forall₂ (Atom.Matches σ) as choice ↔
      List.Forall₂ (Term.Takes σ) (as.flatMap Atom.terms) choice.flatten := by
  induction h with
  | nil => simp
  | cons hlength _ ih =>
      rw [List.forall₂_cons, List.flatMap_cons, List.flatten_cons, forall₂_append_iff hlength, ih]
      rfl

theorem length_flatten_eq {as : List Atom} {choice : List Row}
    (h : List.Forall₂ (fun (a : Atom) (row : Row) => a.terms.length = row.length) as choice) :
    (as.flatMap Atom.terms).length = choice.flatten.length := by
  induction h with
  | nil => rfl
  | cons hlength _ ih =>
      rw [List.flatMap_cons, List.flatten_cons, List.length_append, List.length_append, hlength,
        ih]

theorem length_eq_of_forall₂_matches {σ : Assignment} {as : List Atom} {choice : List Row}
    (h : List.Forall₂ (Atom.Matches σ) as choice) :
    List.Forall₂ (fun (a : Atom) (row : Row) => a.terms.length = row.length) as choice :=
  h.imp fun _ _ hmatch => hmatch.length_eq

theorem forall₂_variables_iff {σ : Assignment} {vars : List String} {t : Row} :
    List.Forall₂ (Term.Takes σ) (vars.map Term.variable) t ↔ t.denotation = vars.map σ := by
  induction vars generalizing t with
  | nil => cases t <;> simp
  | cons v vars ih =>
      cases t with
      | nil => simp
      | cons x t =>
          rw [List.map_cons, List.forall₂_cons, ih, List.map_cons]
          change σ v = x.denotation ∧ _ ↔ x.denotation :: Row.denotation t = _
          rw [List.cons.injEq, eq_comm]

/-- Matching finds an assignment if there is one. -/
theorem exists_takes_iff {ts : List Term} {row : Row} (hlength : row.length = ts.length) :
    (∃ σ, List.Forall₂ (Term.Takes σ) ts row) ↔ (Atom.matchFrom [] ts row).isSome = true := by
  cases hmatch : Atom.matchFrom [] ts row with
  | none =>
      constructor
      · rintro ⟨σ, hσ⟩
        exact absurd hσ (Atom.matchFrom_eq_none hmatch (Valuation.holds_nil σ))
      · intro h
        cases h
  | some ρ =>
      have hspec := Atom.matchFrom_eq_some hlength hmatch
      exact ⟨fun _ => rfl, fun _ => ⟨ρ.assignment, ((hspec.holds_iff _).mp ρ.holds_assignment).2⟩⟩

theorem gives_iff {as : List Atom} {vars : List String} {t : Row} {choice : List Row} :
    (List.Forall₂ (fun (a : Atom) (row : Row) => a.terms.length = row.length) as choice ∧
        vars.length = t.length) ∧
      (Atom.matchFrom [] (as.flatMap Atom.terms ++ vars.map Term.variable)
        (choice.flatten ++ t)).isSome = true ↔ Gives as vars t choice := by
  constructor
  · rintro ⟨⟨hrows, ht⟩, hmatch⟩
    have hlength := length_flatten_eq hrows
    rw [← exists_takes_iff (by simp [hlength, ht])] at hmatch
    obtain ⟨σ, hσ⟩ := hmatch
    rw [forall₂_append_iff hlength] at hσ
    exact ⟨σ, (forall₂_matches_iff hrows σ).mpr hσ.1, forall₂_variables_iff.mp hσ.2⟩
  · rintro ⟨σ, hσ, ht⟩
    have hrows := length_eq_of_forall₂_matches hσ
    have hlength := length_flatten_eq hrows
    have htakes := forall₂_variables_iff.mpr ht
    have hwidth : vars.length = t.length := by
      rw [← htakes.length_eq, List.length_map]
    refine ⟨⟨hrows, hwidth⟩, ?_⟩
    rw [← exists_takes_iff (by simp [hlength, hwidth])]
    exact ⟨σ, (forall₂_append_iff hlength).mpr ⟨(forall₂_matches_iff hrows σ).mp hσ, htakes⟩⟩

instance (as : List Atom) (vars : List String) (t : Row) (choice : List Row) :
    Decidable (Gives as vars t choice) := decidable_of_iff _ gives_iff

/-! ### Counting choices -/

/-- The choices under an assignment are made atom by atom. -/
theorem countP_choices (as : List Atom) (σ : Assignment) :
    (choices as).countP (fun choice => List.Forall₂ (Atom.Matches σ) as choice) =
      (as.map fun a => a.hits σ).prod := by
  induction as with
  | nil => simp [choices]
  | cons a as ih =>
      rw [List.map_cons, List.prod_cons, ← ih, Nat.mul_comm]
      apply countP_flatMap_eq_mul
      intro choice _
      rw [List.countP_map, Atom.hits]
      split_ifs with hrest
      · rw [decide_eq_true_iff] at hrest
        apply List.countP_congr
        intro row _
        simp [hrest]
      · rw [decide_eq_true_iff] at hrest
        rw [List.countP_eq_zero]
        intro row _
        simp [hrest]

theorem mem_choices_cons {a : Atom} {as : List Atom} {choice : List Row} :
    choice ∈ choices (a :: as) ↔ ∃ row ∈ a.rows, ∃ rest ∈ choices as, choice = row :: rest := by
  change choice ∈ (choices as).flatMap (fun rest => a.rows.map fun row => row :: rest) ↔ _
  rw [List.mem_flatMap]
  constructor
  · rintro ⟨rest, hrest, hmem⟩
    obtain ⟨row, hrow, rfl⟩ := List.mem_map.mp hmem
    exact ⟨row, hrow, rest, hrest, rfl⟩
  · rintro ⟨row, hrow, rest, hrest, rfl⟩
    exact ⟨rest, hrest, List.mem_map_of_mem hrow⟩

/-- There is a choice under an assignment if each atom has a matching row. -/
theorem exists_choice_iff {as : List Atom} {σ : Assignment} :
    (∃ choice ∈ choices as, List.Forall₂ (Atom.Matches σ) as choice) ↔
      ∀ a ∈ as, ∃ row ∈ a.rows, a.Matches σ row := by
  induction as with
  | nil => simp [choices]
  | cons a as ih =>
      rw [List.forall_mem_cons, ← ih]
      constructor
      · rintro ⟨choice, hchoice, hmatch⟩
        obtain ⟨row, hrow, rest, hrest, rfl⟩ := mem_choices_cons.mp hchoice
        obtain ⟨hrowmatch, hrestmatch⟩ := List.forall₂_cons.mp hmatch
        exact ⟨⟨row, hrow, hrowmatch⟩, rest, hrest, hrestmatch⟩
      · rintro ⟨⟨row, hrow, hrowmatch⟩, rest, hrest, hrestmatch⟩
        exact ⟨row :: rest, mem_choices_cons.mpr ⟨row, hrow, rest, hrest, rfl⟩,
          List.forall₂_cons.mpr ⟨hrowmatch, hrestmatch⟩⟩

/-- A row leaves no freedom in the variables of an atom that it matches. -/
theorem Atom.eq_of_matches {a : Atom} {row : Row} {σ τ : Assignment} (hσ : a.Matches σ row)
    (hτ : a.Matches τ row) : ∀ v ∈ a.vars, σ v = τ v := by
  intro v hv
  rw [mem_vars_iff] at hv
  unfold Matches at hσ hτ
  generalize a.terms = ts at hσ hτ hv
  induction hσ with
  | nil => cases hv
  | cons hx _ ih =>
      obtain ⟨hy, hrest⟩ := List.forall₂_cons.mp hτ
      rcases List.mem_cons.mp hv with rfl | hv
      · exact hx.trans hy.symm
      · exact ih hrest hv

theorem eq_of_forall₂_matches {as : List Atom} {choice : List Row} {σ τ : Assignment}
    (hσ : List.Forall₂ (Atom.Matches σ) as choice) (hτ : List.Forall₂ (Atom.Matches τ) as choice) :
    ∀ a ∈ as, ∀ v ∈ a.vars, σ v = τ v := by
  induction hσ with
  | nil => simp
  | cons hrow _ ih =>
      obtain ⟨hrow', hrest⟩ := List.forall₂_cons.mp hτ
      exact List.forall_mem_cons.mpr ⟨Atom.eq_of_matches hrow hrow', ih hrest⟩

/-- What a choice asks of an assignment is a matter of the variables of the atoms. -/
theorem forall₂_matches_congr {as : List Atom} {choice : List Row} {σ τ : Assignment}
    (h : ∀ a ∈ as, ∀ v ∈ a.vars, σ v = τ v) :
    List.Forall₂ (Atom.Matches σ) as choice ↔ List.Forall₂ (Atom.Matches τ) as choice := by
  induction as generalizing choice with
  | nil => cases choice <;> simp
  | cons a as ih =>
      obtain ⟨ha, has⟩ := List.forall_mem_cons.mp h
      cases choice with
      | nil => simp
      | cons row choice =>
          rw [List.forall₂_cons, List.forall₂_cons, Atom.matches_congr ha, ih has]

/-! ### Rows and choices -/

open Classical in
/-- The values that a choice gives to some variables, if it matches at all. -/
noncomputable def valuesOf (vars : List String) (as : List Atom) (choice : List Row) :
    Option (List Denotation) :=
  if h : ∃ σ, List.Forall₂ (Atom.Matches σ) as choice then some (vars.map h.choose) else none

/-- Over variables of the atoms it does not matter which assignment is taken. -/
theorem valuesOf_eq_some_iff {vars : List String} {as : List Atom}
    (hvars : ∀ v ∈ vars, ∃ a ∈ as, v ∈ a.vars) {choice : List Row} {d : List Denotation} :
    valuesOf vars as choice = some d ↔
      ∃ σ, List.Forall₂ (Atom.Matches σ) as choice ∧ d = vars.map σ := by
  unfold valuesOf
  constructor
  · intro hd
    split_ifs at hd with h
    exact ⟨h.choose, h.choose_spec, (Option.some.inj hd).symm⟩
  · rintro ⟨σ, hσ, rfl⟩
    have h : ∃ σ, List.Forall₂ (Atom.Matches σ) as choice := ⟨σ, hσ⟩
    have hagree : ∀ v ∈ vars, h.choose v = σ v := by
      intro v hv
      obtain ⟨a, ha, hva⟩ := hvars v hv
      exact eq_of_forall₂_matches h.choose_spec hσ a ha v hva
    rw [dif_pos h, List.map_congr_left hagree]

theorem countP_filterMap_valuesOf {vars : List String} {as : List Atom}
    (hvars : ∀ v ∈ vars, ∃ a ∈ as, v ∈ a.vars) (p : List Denotation → Bool)
    (q : List Row → Bool) (hq : ∀ choice, q choice = true ↔
      ∃ σ, List.Forall₂ (Atom.Matches σ) as choice ∧ p (vars.map σ) = true)
    (l : List (List Row)) : (l.filterMap (valuesOf vars as)).countP p = l.countP q := by
  rw [List.countP_filterMap]
  apply List.countP_congr
  intro choice _
  rw [hq]
  cases hv : valuesOf vars as choice with
  | none =>
      constructor
      · intro h
        cases h
      · rintro ⟨σ, hσ, -⟩
        have hsome := (valuesOf_eq_some_iff hvars).mpr ⟨σ, hσ, rfl⟩
        rw [hv] at hsome
        cases hsome
  | some d =>
      rw [Option.map_some, Option.getD_some]
      constructor
      · intro hd
        obtain ⟨σ, hσ, rfl⟩ := (valuesOf_eq_some_iff hvars).mp hv
        exact ⟨σ, hσ, hd⟩
      · rintro ⟨σ, hσ, hp⟩
        have hsome := (valuesOf_eq_some_iff hvars).mpr ⟨σ, hσ, rfl⟩
        rw [hv] at hsome
        rwa [Option.some.inj hsome]

section Correspondence

variable {c : Batch} {as : List Atom}

/-- If assignments weigh in a clean batch what they have as choices, its rows are
the values that the choices give to its variables. -/
theorem perm_valuesOf (hc : c.Clean) (hvars : ∀ v, v ∈ c.head.vars ↔ ∃ a ∈ as, v ∈ a.vars)
    (hweight : ∀ σ, c.weight σ = (as.map fun a => a.hits σ).prod) :
    List.Perm (c.rows.map Row.denotation) ((choices as).filterMap (valuesOf c.head.vars as)) := by
  rw [List.perm_iff_count]
  intro d
  rw [List.count_eq_countP, List.count_eq_countP, List.countP_map]
  by_cases hd : ∃ σ, d = c.head.vars.map σ
  · obtain ⟨σ, rfl⟩ := hd
    have hrows : c.rows.countP ((· == c.head.vars.map σ) ∘ Row.denotation) = c.weight σ :=
      List.countP_congr fun r _ => by simp
    rw [hrows, hweight, ← countP_choices, eq_comm]
    refine countP_filterMap_valuesOf (fun v => (hvars v).mp) _ _ (fun choice => ?_) _
    rw [decide_eq_true_iff]
    constructor
    · intro hσ
      exact ⟨σ, hσ, by simp⟩
    · rintro ⟨τ, hτ, heq⟩
      have hmap : c.head.vars.map τ = c.head.vars.map σ := by simpa using heq
      refine (forall₂_matches_congr fun a ha v hv => ?_).mp hτ
      exact List.map_inj_left.mp hmap v ((hvars v).mpr ⟨a, ha, hv⟩)
  · have hrows : c.rows.countP ((· == d) ∘ Row.denotation) = 0 := by
      rw [List.countP_eq_zero]
      intro r hr heq
      obtain ⟨σ, hσ⟩ := hc.coherent r hr
      exact hd ⟨σ, (by simpa using heq : r.denotation = d).symm.trans hσ⟩
    rw [hrows, eq_comm, List.countP_eq_zero]
    intro e he heq
    obtain ⟨choice, -, hvalues⟩ := List.mem_filterMap.mp he
    obtain ⟨σ, -, rfl⟩ := (valuesOf_eq_some_iff fun v => (hvars v).mp).mp hvalues
    exact hd ⟨σ, (by simpa using heq : c.head.vars.map σ = d).symm⟩

/-- The parts of the rows for some variables are counted by the choices that give
them. -/
theorem count_restricted (hc : c.Clean) (hvars : ∀ v, v ∈ c.head.vars ↔ ∃ a ∈ as, v ∈ a.vars)
    (hweight : ∀ σ, c.weight σ = (as.map fun a => a.hits σ).prod) (keep : List String) (t : Row) :
    t.count (c.restricted keep).rows =
      (choices as).countP fun choice => Gives as (keep.filter c.head.vars.contains) t choice := by
  -- the part of a row is read off the values of all its variables
  let part : List Denotation → List Denotation := fun d =>
    (keep.filter c.head.vars.contains).map fun v =>
      (List.lookup v (c.head.vars.zip d)).getD .nothing
  have hpart : ∀ σ : Assignment,
      part (c.head.vars.map σ) = (keep.filter c.head.vars.contains).map σ := by
    intro σ
    apply List.map_congr_left
    intro v hv
    have hmem : v ∈ c.head.vars := by simpa using (List.mem_filter.mp hv).2
    rw [lookup_zip_map, if_pos hmem, Option.getD_some]
  have hrows : t.count (c.restricted keep).rows =
      (c.rows.map Row.denotation).countP fun d => t.denotation = part d := by
    rw [Row.count, Batch.restricted, List.countP_map, List.countP_map]
    apply List.countP_congr
    intro r hr
    obtain ⟨σ, hσ⟩ := hc.coherent r hr
    rw [Function.comp_apply, Function.comp_apply, Row.same_iff, Batch.denotation_restrict hσ,
      decide_eq_true_iff, hσ, hpart]
  rw [hrows, (perm_valuesOf hc hvars hweight).countP_eq]
  refine countP_filterMap_valuesOf (fun v => (hvars v).mp) _ _ (fun choice => ?_) _
  rw [decide_eq_true_iff, Gives]
  refine exists_congr fun σ => and_congr_right fun _ => ?_
  rw [decide_eq_true_iff, hpart]

end Correspondence

end Conjunctive
