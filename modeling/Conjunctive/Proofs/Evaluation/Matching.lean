import Conjunctive.Evaluation.Scan
import Conjunctive.Proofs.Hypergraph.Merging
import Conjunctive.Proofs.Batch.Weight

/-!
# Assignments that match atoms with rows

`Atom.Matches σ a row` says what a row of a relation has to do with an atom
under an assignment: each constant has the value of the cell at its place, and
each variable its value in all its places. Matching a row against an atom finds
such an assignment if there is one, so a scan gives the rows that match, each
restricted to the variables of the head; and the weight of an assignment in a
scan is the number of rows that match under it.
-/

namespace Conjunctive

/-- Whether a term may stand for a cell under an assignment. -/
def Term.Takes (σ : Assignment) : Term → Value → Prop
  | .variable v, x => σ v = x.denotation
  | .constant c, x => c.value.denotation = x.denotation

instance (σ : Assignment) (t : Term) (x : Value) : Decidable (t.Takes σ x) := by
  cases t <;> exact inferInstanceAs (Decidable (_ = _))

namespace Valuation

/-- Whether an assignment has the values of a valuation. -/
def Holds (ρ : Valuation) (σ : Assignment) : Prop :=
  ∀ v x, ρ.value? v = some x → σ v = x.denotation

/-- The assignment with the values of a valuation. -/
def assignment (ρ : Valuation) : Assignment := fun v =>
  match ρ.value? v with
  | some x => x.denotation
  | none => .nothing

theorem holds_assignment (ρ : Valuation) : ρ.Holds ρ.assignment := by
  intro v x hx
  rw [assignment, hx]

theorem holds_nil (σ : Assignment) : Holds [] σ := by
  intro v x hx
  cases hx

theorem value?_cons (v : String) (x : Value) (ρ : Valuation) (w : String) :
    value? ((v, x) :: ρ) w = if w = v then some x else ρ.value? w := by
  rw [value?, List.lookup_cons]
  by_cases hw : w = v
  · simp [hw]
  · have hne : (w == v) = false := by simpa using hw
    rw [hne, if_neg hw]
    rfl

/-- A new variable adds its own equation. -/
theorem holds_cons_iff {v : String} {x : Value} {ρ : Valuation} (hv : ρ.value? v = none)
    {σ : Assignment} : Holds ((v, x) :: ρ) σ ↔ ρ.Holds σ ∧ σ v = x.denotation := by
  constructor
  · intro h
    refine ⟨fun w y hw => h w y ?_, h v x ?_⟩
    · rw [value?_cons, if_neg, hw]
      rintro rfl
      rw [hv] at hw
      cases hw
    · rw [value?_cons, if_pos rfl]
  · rintro ⟨hρ, hx⟩ w y hw
    rw [value?_cons] at hw
    split_ifs at hw with heq
    · cases hw
      rw [heq]
      exact hx
    · exact hρ w y hw

end Valuation

namespace Atom

/-- Whether an atom is a row of its relation under an assignment. -/
def Matches (σ : Assignment) (a : Atom) (row : Row) : Prop :=
  List.Forall₂ (Term.Takes σ) a.terms row

instance (σ : Assignment) (a : Atom) (row : Row) : Decidable (a.Matches σ row) :=
  inferInstanceAs (Decidable (List.Forall₂ _ _ _))

/-- The rows of the relation that an atom is bound to. -/
def rows (a : Atom) : List Row := (a.relation.map Relation.rows).getD []

/-- How many rows match an atom under an assignment. -/
def hits (a : Atom) (σ : Assignment) : Nat := a.rows.countP fun row => a.Matches σ row

/-- The atom is bound to a relation whose cells can be looked up. -/
structure Ready (a : Atom) : Prop where
  bound : a.relation.isSome = true
  isKey : ∀ row ∈ a.rows, ∀ x ∈ row, x.isKey = true

theorem length_of_mem_rows {a : Atom} {row : Row} (h : row ∈ a.rows) :
    row.length = a.terms.length := by
  unfold rows at h
  cases hr : a.relation with
  | none =>
      rw [hr] at h
      cases h
  | some r =>
      rw [hr] at h
      rw [a.arity_eq r hr]
      exact r.width_eq row h

theorem Ready.isComparable {a : Atom} (h : a.Ready) {row : Row} (hrow : row ∈ a.rows) :
    ∀ x ∈ row, x.isComparable = true := by
  intro x hx
  refine Value.isComparable_iff.mpr ⟨h.isKey row hrow x hx, ?_⟩
  obtain ⟨r, hr⟩ := Option.isSome_iff_exists.mp h.bound
  rw [rows, hr] at hrow
  exact r.definite row hrow x hx

/-- What the terms of an atom say about an assignment is a matter of its variables. -/
theorem matches_congr {a : Atom} {σ τ : Assignment} (h : ∀ v ∈ a.vars, σ v = τ v) {row : Row} :
    a.Matches σ row ↔ a.Matches τ row := by
  have hterms : ∀ v, Term.variable v ∈ a.terms → σ v = τ v :=
    fun v hv => h v (mem_vars_iff.mpr hv)
  unfold Matches
  generalize a.terms = ts at hterms
  induction ts generalizing row with
  | nil => cases row <;> simp
  | cons t ts ih =>
      cases row with
      | nil => simp
      | cons x row =>
          have htail : ∀ v, Term.variable v ∈ ts → σ v = τ v := fun v hv => hterms v (by simp [hv])
          rw [List.forall₂_cons, List.forall₂_cons]
          refine and_congr ?_ (ih htail)
          rcases t with v | c
          · rw [Term.Takes, Term.Takes, hterms v (by simp)]
          · rfl

theorem hits_congr {a : Atom} {σ τ : Assignment} (h : ∀ v ∈ a.vars, σ v = τ v) :
    a.hits σ = a.hits τ := by
  unfold hits
  apply List.countP_congr
  intro row _
  rw [decide_eq_true_iff, decide_eq_true_iff, matches_congr h]

/-! ### Matching -/

/-- A valuation extends another by the equations between terms and cells, and by
nothing else. -/
structure Extends (ρ : Valuation) (ts : List Term) (row : Row) (ρ' : Valuation) : Prop where
  holds_iff : ∀ σ, ρ'.Holds σ ↔ ρ.Holds σ ∧ List.Forall₂ (Term.Takes σ) ts row
  isSome_iff : ∀ v, (ρ'.value? v).isSome = true ↔
    (ρ.value? v).isSome = true ∨ Term.variable v ∈ ts
  mem : ∀ v x, ρ'.value? v = some x → ρ.value? v = some x ∨ x ∈ row

namespace Extends

variable {ρ ρ' : Valuation} {ts : List Term} {row : Row} {v : String} {x y : Value}

theorem nil : Extends ρ [] [] ρ := by
  constructor <;> simp

/-- A variable that has its value already adds nothing. -/
theorem bound (hv : ρ.value? v = some y) (hy : y.denotation = x.denotation)
    (h : Extends ρ ts row ρ') : Extends ρ (.variable v :: ts) (x :: row) ρ' where
  holds_iff := by
    intro σ
    rw [h.holds_iff, List.forall₂_cons, Term.Takes, ← hy]
    constructor
    · rintro ⟨hρ, hrest⟩
      exact ⟨hρ, hρ v y hv, hrest⟩
    · rintro ⟨hρ, -, hrest⟩
      exact ⟨hρ, hrest⟩
  isSome_iff := by
    intro w
    rw [h.isSome_iff, List.mem_cons]
    constructor
    · rintro (hw | hw)
      · exact Or.inl hw
      · exact Or.inr (Or.inr hw)
    · rintro (hw | hw | hw)
      · exact Or.inl hw
      · cases hw
        exact Or.inl (by rw [hv]; rfl)
      · exact Or.inr hw
  mem := by
    intro w z hz
    exact (h.mem w z hz).imp_right (List.mem_cons_of_mem x)

/-- A new variable takes the value of the cell. -/
theorem new (hv : ρ.value? v = none) (h : Extends ((v, x) :: ρ) ts row ρ') :
    Extends ρ (.variable v :: ts) (x :: row) ρ' where
  holds_iff := by
    intro σ
    rw [h.holds_iff, Valuation.holds_cons_iff hv, List.forall₂_cons, Term.Takes, and_assoc]
  isSome_iff := by
    intro w
    rw [h.isSome_iff, Valuation.value?_cons, List.mem_cons, Term.variable.injEq]
    by_cases hw : w = v <;> simp [hw]
  mem := by
    intro w z hz
    rcases h.mem w z hz with hz | hz
    · rw [Valuation.value?_cons] at hz
      split_ifs at hz
      · cases hz
        exact Or.inr (List.mem_cons_self ..)
      · exact Or.inl hz
    · exact Or.inr (List.mem_cons_of_mem x hz)

/-- A constant only tests the cell. -/
theorem constant {c : Constant} (hc : c.value.denotation = x.denotation)
    (h : Extends ρ ts row ρ') : Extends ρ (.constant c :: ts) (x :: row) ρ' where
  holds_iff := by
    intro σ
    rw [h.holds_iff, List.forall₂_cons, Term.Takes, hc]
    simp
  isSome_iff := by
    intro w
    rw [h.isSome_iff, List.mem_cons]
    simp
  mem := by
    intro w z hz
    exact (h.mem w z hz).imp_right (List.mem_cons_of_mem x)

end Extends

theorem matchFrom_eq_some {ρ ρ' : Valuation} {ts : List Term} {row : Row}
    (hlength : row.length = ts.length) (h : matchFrom ρ ts row = some ρ') :
    Extends ρ ts row ρ' := by
  fun_induction matchFrom ρ ts row with
  | case1 ρ v ts x xs y hy hsame ih =>
      exact (ih (Nat.succ.inj hlength) h).bound hy (Value.same_iff.mp hsame)
  | case2 => cases h
  | case3 ρ v ts x xs hv ih => exact (ih (Nat.succ.inj hlength) h).new hv
  | case4 ρ c ts x xs hsame ih =>
      exact (ih (Nat.succ.inj hlength) h).constant (Value.same_iff.mp hsame)
  | case5 => cases h
  | case6 ts ρ row hvariable hconstant =>
      cases h
      cases ts with
      | nil =>
          rw [List.length_eq_zero_iff.mp hlength]
          exact .nil
      | cons t ts =>
          cases row with
          | nil => cases hlength
          | cons x row =>
              rcases t with v | c
              · exact (hvariable v ts x row rfl rfl).elim
              · exact (hconstant c ts x row rfl rfl).elim

theorem matchFrom_eq_none {ρ : Valuation} {ts : List Term} {row : Row}
    (h : matchFrom ρ ts row = none) {σ : Assignment} (hσ : ρ.Holds σ) :
    ¬ List.Forall₂ (Term.Takes σ) ts row := by
  fun_induction matchFrom ρ ts row with
  | case1 ρ v ts x xs y hy hsame ih =>
      rw [List.forall₂_cons]
      rintro ⟨-, hrest⟩
      exact ih h hσ hrest
  | case2 ρ v ts x xs y hy hsame =>
      rw [List.forall₂_cons]
      rintro ⟨hx, -⟩
      exact hsame (Value.same_iff.mpr ((hσ v y hy).symm.trans hx))
  | case3 ρ v ts x xs hv ih =>
      rw [List.forall₂_cons]
      rintro ⟨hx, hrest⟩
      exact ih h ((Valuation.holds_cons_iff hv).mpr ⟨hσ, hx⟩) hrest
  | case4 ρ c ts x xs hsame ih =>
      rw [List.forall₂_cons]
      rintro ⟨-, hrest⟩
      exact ih h hσ hrest
  | case5 ρ c ts x xs hsame =>
      rw [List.forall₂_cons]
      rintro ⟨hx, -⟩
      exact hsame (Value.same_iff.mpr hx)
  | case6 => cases h

end Atom

end Conjunctive
