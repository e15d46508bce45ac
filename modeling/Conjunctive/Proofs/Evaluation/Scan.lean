import Conjunctive.Proofs.Evaluation.Matching
import Mathlib.Algebra.BigOperators.Group.List.Basic

/-!
# Solving the atoms of one node

A scan of an atom has the rows that match it, restricted to the variables of a
head. Over a head with all the variables of the atom, the weight of an
assignment in the scan is the number of rows that match under it; and for
several atoms over the variables of one head these numbers multiply.
-/

namespace Conjunctive

theorem Valuation.mapM_value?_eq_some {ρ : Valuation} {keep : List String}
    (h : ∀ v ∈ keep, (ρ.value? v).isSome = true) :
    ∃ t : Row, keep.mapM ρ.value? = some t ∧ t.denotation = keep.map ρ.assignment ∧
      ∀ x ∈ t, ∃ v, ρ.value? v = some x := by
  induction keep with
  | nil => exact ⟨[], rfl, rfl, by simp⟩
  | cons v keep ih =>
      obtain ⟨t, hrun, ht, hcells⟩ := ih fun v hv => h v (by simp [hv])
      obtain ⟨x, hx⟩ := Option.isSome_iff_exists.mp (h v (by simp))
      refine ⟨x :: t, ?_, ?_, ?_⟩
      · rw [List.mapM_cons, hx, hrun]
        rfl
      · rw [List.map_cons, ← ht, Valuation.assignment, hx]
        rfl
      · intro y hy
        rcases List.mem_cons.mp hy with rfl | hy
        · exact ⟨v, hx⟩
        · exact hcells y hy

namespace Atom

theorem mem_columnsIn {a : Atom} {head : List String} {v : String} :
    v ∈ a.columnsIn head ↔ v ∈ head ∧ v ∈ a.vars := by
  rw [columnsIn, List.mem_filter, List.contains_iff_mem]

/-- A row of the relation gives at most one row of the scan. It gives one if
the row matches under some assignment, and then with the values of each
assignment under which it matches. -/
theorem scanRow_spec {a : Atom} {row : Row} (hrow : row ∈ a.rows) (head : List String) :
    ((a.match? row).bind fun ρ => (a.columnsIn head).mapM ρ.value?) = none ∧
        (∀ σ, ¬ a.Matches σ row) ∨
      ∃ t : Row, ((a.match? row).bind fun ρ => (a.columnsIn head).mapM ρ.value?) = some t ∧
        (∃ σ, a.Matches σ row) ∧
        (∀ σ, a.Matches σ row → t.denotation = (a.columnsIn head).map σ) ∧
        ∀ x ∈ t, x ∈ row := by
  have hlength := length_of_mem_rows hrow
  cases hmatch : a.match? row with
  | none => exact Or.inl ⟨rfl, fun σ => matchFrom_eq_none hmatch (Valuation.holds_nil σ)⟩
  | some ρ =>
      right
      obtain ⟨hholds, hsome, hmem⟩ := matchFrom_eq_some hlength hmatch
      have hdomain : ∀ v ∈ a.columnsIn head, (ρ.value? v).isSome = true := by
        intro v hv
        exact (hsome v).mpr (Or.inr (mem_vars_iff.mp (mem_columnsIn.mp hv).2))
      obtain ⟨t, hrun, ht, hcells⟩ := Valuation.mapM_value?_eq_some hdomain
      refine ⟨t, hrun, ⟨ρ.assignment, ((hholds _).mp ρ.holds_assignment).2⟩, fun σ hσ => ?_, ?_⟩
      · rw [ht]
        apply List.map_congr_left
        intro v hv
        obtain ⟨x, hx⟩ := Option.isSome_iff_exists.mp (hdomain v hv)
        have hagree := (hholds σ).mpr ⟨Valuation.holds_nil σ, hσ⟩ v x hx
        rw [hagree, Valuation.assignment, hx]
      · intro x hx
        obtain ⟨v, hv⟩ := hcells x hx
        rcases hmem v x hv with hv | hv
        · cases hv
        · exact hv

variable {a : Atom} {head : List String}

theorem mem_scanRows {t : Row} (h : t ∈ a.scanRows head a.rows) :
    ∃ row ∈ a.rows, (∃ σ, a.Matches σ row) ∧
      (∀ σ, a.Matches σ row → t.denotation = (a.columnsIn head).map σ) ∧ ∀ x ∈ t, x ∈ row := by
  obtain ⟨row, hrow, ht⟩ := List.mem_filterMap.mp h
  change ((a.match? row).bind _) = some t at ht
  rcases scanRow_spec hrow head with ⟨hnone, -⟩ | ⟨t', ht', hspec⟩
  · rw [hnone] at ht
    cases ht
  · rw [ht'] at ht
    cases ht
    exact ⟨row, hrow, hspec⟩

/-- A scan has rows if and only if some row of the relation matches. -/
theorem scanRows_ne_nil_iff :
    a.scanRows head a.rows ≠ [] ↔ ∃ row ∈ a.rows, ∃ σ, a.Matches σ row := by
  constructor
  · intro hne
    obtain ⟨t, ht⟩ := List.exists_mem_of_ne_nil _ hne
    obtain ⟨row, hrow, hσ, -⟩ := mem_scanRows ht
    exact ⟨row, hrow, hσ⟩
  · rintro ⟨row, hrow, σ, hσ⟩
    rcases scanRow_spec hrow head with ⟨-, hnone⟩ | ⟨t, ht, -⟩
    · exact absurd hσ (hnone σ)
    · exact List.ne_nil_of_mem (List.mem_filterMap.mpr ⟨row, hrow, ht⟩)

/-- The scan of an atom as a batch. -/
def scanned (a : Atom) (head : List String) : Batch :=
  ⟨Head.ofVars (a.columnsIn head), a.scanRows head a.rows⟩

theorem scan_eq (h : a.Ready) (head : List String) : a.scan head = .ok (a.scanned head) := by
  obtain ⟨r, hr⟩ := Option.isSome_iff_exists.mp h.bound
  have hrows : a.rows = r.rows := by
    rw [rows, hr]
    rfl
  rw [scanned, hrows]
  unfold scan
  split
  · rename_i hnone
    rw [hr] at hnone
    cases hnone
  · rename_i s hs
    rw [hr] at hs
    cases hs
    rfl

theorem clean_scanned (h : a.Ready) (head : List String) : (a.scanned head).Clean where
  coherent := by
    intro t ht
    obtain ⟨row, -, ⟨σ, hσ⟩, hvalues, -⟩ := mem_scanRows ht
    exact ⟨σ, hvalues σ hσ⟩
  comparable := by
    intro t ht x hx
    obtain ⟨row, hrow, -, -, hcells⟩ := mem_scanRows ht
    exact h.isComparable hrow x (hcells x hx)

/-- Over all the variables of an atom, rows of the scan and matching rows of the
relation correspond. -/
theorem weight_scanned (hhead : ∀ v ∈ a.vars, v ∈ head) (σ : Assignment) :
    (a.scanned head).weight σ = a.hits σ := by
  rw [Batch.weight, scanned, scanRows, List.countP_filterMap, hits]
  apply List.countP_congr
  intro row hrow
  rcases scanRow_spec hrow head with ⟨hnone, hnot⟩ | ⟨t, ht, ⟨τ, hτ⟩, hvalues, -⟩
  · change (Option.map _ (Option.bind _ _)).getD false = true ↔ _
    rw [hnone, decide_eq_true_iff]
    constructor
    · intro h
      cases h
    · intro h
      exact absurd h (hnot σ)
  · change (Option.map _ (Option.bind _ _)).getD false = true ↔ _
    rw [ht, Option.map_some, Option.getD_some, decide_eq_true_iff, decide_eq_true_iff]
    constructor
    · intro hσ
      rw [hvalues τ hτ] at hσ
      refine (matches_congr fun v hv => ?_).mp hτ
      exact List.map_inj_left.mp hσ v (mem_columnsIn.mpr ⟨hhead v hv, hv⟩)
    · exact hvalues σ

end Atom

/-- The atoms have exactly the variables of a head, and can be scanned. -/
def Solvable (atoms : List Atom) (head : List String) : Prop :=
  ∀ a ∈ atoms, a.Ready ∧ ∀ v, v ∈ a.vars ↔ v ∈ head

theorem Solvable.of_cons {a : Atom} {as : List Atom} {head : List String}
    (h : Solvable (a :: as) head) : Solvable as head := fun b hb => h b (by simp [hb])

/-- Over its own variables the columns of a scan are the head itself. -/
theorem Atom.columnsIn_eq_self {a : Atom} {head : List String} (h : ∀ v, v ∈ a.vars ↔ v ∈ head) :
    a.columnsIn head = head := by
  rw [columnsIn, List.filter_eq_self]
  intro v hv
  rw [List.contains_iff_mem]
  exact (h v).mpr hv

/-- Joining further scans multiplies by the matching rows of their atoms. That
it stops at an empty batch makes no difference, since the product is zero then. -/
theorem joinScans_eq {head : List String} {as : List Atom} (has : Solvable as head) {b : Batch}
    (hb : b.Clean) (hvars : ∀ v, v ∈ b.head.vars ↔ v ∈ head) :
    ∃ c, joinScans head b as = .ok c ∧ c.Clean ∧ (∀ v, v ∈ c.head.vars ↔ v ∈ head) ∧
      ∀ σ, c.weight σ = b.weight σ * (as.map fun a => a.hits σ).prod := by
  induction as generalizing b with
  | nil => exact ⟨b, rfl, hb, hvars, fun σ => by simp⟩
  | cons a as ih =>
      obtain ⟨hready, hatom⟩ := has a (by simp)
      rw [joinScans]
      split_ifs with hempty
      · refine ⟨b, rfl, hb, hvars, fun σ => ?_⟩
        have hzero : b.weight σ = 0 := by
          rw [Batch.weight, Batch.isEmpty_iff.mp hempty]
          rfl
        rw [hzero, Nat.zero_mul]
      · have hscan := Atom.clean_scanned hready head
        have hjoined : ∀ v, v ∈ (b.head.append (a.scanned head).head).vars ↔ v ∈ head := by
          intro v
          change v ∈ b.head.vars ++ a.columnsIn head ↔ _
          rw [List.mem_append, hvars, Atom.columnsIn_eq_self hatom, or_self]
        obtain ⟨c, hrun, hclean, hc, hweight⟩ :=
          ih has.of_cons (hb.joined hscan) hjoined
        refine ⟨c, ?_, hclean, hc, fun σ => ?_⟩
        · rw [Atom.scan_eq hready]
          change (liftBatch (b.join (a.scanned head)) >>= fun j => joinScans head j as) = _
          rw [Batch.join_eq hb.regular hscan.regular]
          exact hrun
        · rw [hweight, Batch.weight_joined hb, Atom.weight_scanned fun v hv => (hatom v).mp hv,
            List.map_cons, List.prod_cons, Nat.mul_assoc]

/-- What the atoms of a node give together, over the variables of the node. -/
theorem scanAll_eq {head : List String} {atoms : List Atom} (hne : atoms ≠ [])
    (hatoms : Solvable atoms head) :
    ∃ b, scanAll atoms head = .ok b ∧ b.Clean ∧ b.head.vars = head ∧
      ∀ σ, b.weight σ = (atoms.map fun a => a.hits σ).prod := by
  match atoms, hne with
  | [a], _ =>
      obtain ⟨hready, hatom⟩ := hatoms a (by simp)
      refine ⟨a.scanned head, Atom.scan_eq hready head, Atom.clean_scanned hready head,
        Atom.columnsIn_eq_self hatom, fun σ => ?_⟩
      rw [Atom.weight_scanned fun v hv => (hatom v).mp hv, List.map_singleton, List.prod_singleton]
  | a :: a' :: as, _ =>
      obtain ⟨hready, hatom⟩ := hatoms a (by simp)
      have hvars : ∀ v, v ∈ (a.scanned head).head.vars ↔ v ∈ head := by
        intro v
        change v ∈ a.columnsIn head ↔ _
        rw [Atom.columnsIn_eq_self hatom]
      obtain ⟨c, hrun, hclean, hc, hweight⟩ :=
        joinScans_eq hatoms.of_cons (Atom.clean_scanned hready head) hvars
      refine ⟨c.restricted head, ?_, hclean.restricted head, ?_, fun σ => ?_⟩
      · change (a.scan head >>= fun first => joinScans head first (a' :: as) >>=
          fun joined => liftBatch (joined.project head)) = _
        rw [Atom.scan_eq hready]
        change (joinScans head (a.scanned head) (a' :: as) >>= _) = _
        rw [hrun]
        change liftBatch (c.project head) = _
        rw [Batch.project_eq hclean.regular.wellShaped]
        rfl
      · change head.filter c.head.vars.contains = head
        rw [List.filter_eq_self]
        intro v hv
        rw [List.contains_iff_mem]
        exact (hc v).mpr hv
      · rw [Batch.weight_restricted hclean fun v hv => (hc v).mp hv, hweight,
          Atom.weight_scanned fun v hv => (hatom v).mp hv, ← List.prod_cons]
        rfl

end Conjunctive
