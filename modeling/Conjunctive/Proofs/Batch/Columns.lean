import Conjunctive.Batch.Index
import Conjunctive.Proofs.Lists
import Mathlib.Data.List.Forall2

/-!
# Columns and the cells under them

`cellsOf vars v r` are the cells of a row in the columns that a variable
labels. For rows as wide as their head, reading the columns of a variable gives
these cells and does not fail, so that what an operation does with columns can
be said by variables alone.
-/

namespace Conjunctive

/-- Whether a value can be a key and equals itself. -/
def Value.isComparable (v : Value) : Bool := v.isKey && !v.isNotANumber

theorem Value.isComparable_iff {v : Value} :
    v.isComparable = true ↔ v.isKey = true ∧ v.isNotANumber = false := by
  rw [isComparable, Bool.and_eq_true, Bool.not_eq_true']

/-- The cells of a row that a variable labels, under the labels `vars`. -/
def cellsOf (vars : List String) (v : String) (r : Row) : List Value :=
  (vars.zip r).filterMap fun c => if c.1 = v then some c.2 else none

theorem mem_cellsOf {vars : List String} {v : String} {r : Row} {x : Value} :
    x ∈ cellsOf vars v r ↔ (v, x) ∈ vars.zip r := by
  rw [cellsOf, List.mem_filterMap]
  constructor
  · rintro ⟨⟨w, y⟩, hmem, heq⟩
    split_ifs at heq with hw
    cases heq
    exact hw ▸ hmem
  · intro hmem
    exact ⟨_, hmem, if_pos rfl⟩

/-- What the cells of a variable denote is read off what the row denotes. -/
theorem mem_map_denotation_cellsOf {vars : List String} {v : String} {r : Row} {d : Denotation} :
    d ∈ (cellsOf vars v r).map Value.denotation ↔ (v, d) ∈ vars.zip r.denotation := by
  change _ ↔ (v, d) ∈ vars.zip (r.map Value.denotation)
  rw [List.zip_map_right]
  constructor
  · intro h
    obtain ⟨x, hx, rfl⟩ := List.mem_map.mp h
    exact List.mem_map.mpr ⟨(v, x), mem_cellsOf.mp hx, rfl⟩
  · intro h
    obtain ⟨⟨w, x⟩, hx, heq⟩ := List.mem_map.mp h
    cases heq
    exact List.mem_map_of_mem (mem_cellsOf.mpr hx)

theorem head?_cellsOf {vars : List String} {v : String} {r : Row} :
    (cellsOf vars v r).head? = List.lookup v (vars.zip r) := by
  induction vars generalizing r with
  | nil => rfl
  | cons w vars ih =>
      cases r with
      | nil => rfl
      | cons x r =>
          by_cases hw : w = v
          · simp [cellsOf, hw]
          · have hv : (v == w) = false := by simpa using Ne.symm hw
            simpa [cellsOf, hw, List.lookup_cons, hv] using ih (r := r)

theorem isComparable_of_mem_cellsOf {vars : List String} {v : String} {r : Row}
    (hr : ∀ x ∈ r, x.isComparable = true) : ∀ x ∈ cellsOf vars v r, x.isComparable = true :=
  fun x hx => hr x (List.of_mem_zip (mem_cellsOf.mp hx)).2

theorem cellsOf_ne_nil {vars : List String} {v : String} {r : Row} (hv : v ∈ vars)
    (hr : r.length = vars.length) : cellsOf vars v r ≠ [] := by
  obtain ⟨i, hi⟩ := List.mem_iff_getElem?.mp hv
  have hlt : i < r.length := hr ▸ (List.getElem?_eq_some_iff.mp hi).1
  have hzip : (vars.zip r)[i]? = some (v, r[i]) :=
    List.getElem?_zip_eq_some.mpr ⟨hi, List.getElem?_eq_getElem hlt⟩
  exact List.ne_nil_of_mem (mem_cellsOf.mpr (List.mem_of_getElem? hzip))

namespace Row

theorem checkKeys_eq_ok {r : Row} (h : ∀ v ∈ r, v.isKey = true) : r.checkKeys = .ok () := by
  have hnone : r.find? (fun v => !v.isKey) = none := by
    rw [List.find?_eq_none]
    intro v hv
    simp [h v hv]
  rw [checkKeys, hnone]

end Row

namespace Batch

/-- The rows of a batch are as wide as the head, and their cells are keys and numbers if they
are floats. -/
structure Regular (b : Batch) : Prop where
  wellShaped : b.WellShaped
  comparable : ∀ r ∈ b.rows, ∀ v ∈ r, v.isComparable = true

theorem Regular.isKey {b : Batch} (h : b.Regular) : ∀ r ∈ b.rows, ∀ v ∈ r, v.isKey = true :=
  fun r hr v hv => (Value.isComparable_iff.mp (h.comparable r hr v hv)).1

theorem isEmpty_iff {b : Batch} : b.isEmpty = true ↔ b.rows = [] := List.isEmpty_iff

theorem checkKeys_of_isKey {b : Batch} (h : ∀ r ∈ b.rows, ∀ v ∈ r, v.isKey = true) :
    b.checkKeys = .ok () := by
  obtain ⟨head, rows⟩ := b
  change rows.forM Row.checkKeys = .ok ()
  induction rows with
  | nil => rfl
  | cons r rows ih =>
      rw [List.forM, Row.checkKeys_eq_ok (h r (by simp))]
      exact ih fun s hs => h s (by simp [hs])

/-! ### The columns of a variable -/

theorem mem_columnsOf {b : Batch} {v : String} {i : Nat} :
    i ∈ b.columnsOf v ↔ b.head.vars[i]? = some v := by
  rw [columnsOf, List.mem_filterMap]
  constructor
  · rintro ⟨⟨w, j⟩, hmem, heq⟩
    split_ifs at heq with hw
    cases heq
    rw [List.mem_zipIdx_iff_getElem?] at hmem
    exact hw ▸ hmem
  · intro h
    exact ⟨(v, i), List.mem_zipIdx_iff_getElem?.mpr h, if_pos rfl⟩

theorem columnsOf_ne_nil_iff {b : Batch} {v : String} :
    b.columnsOf v ≠ [] ↔ v ∈ b.head.vars := by
  rw [List.mem_iff_getElem?]
  constructor
  · intro h
    obtain ⟨i, hi⟩ := List.exists_mem_of_ne_nil _ h
    exact ⟨i, mem_columnsOf.mp hi⟩
  · rintro ⟨i, hi⟩
    exact List.ne_nil_of_mem (mem_columnsOf.mpr hi)

theorem columns_eq {b : Batch} {v : String} (hv : v ∈ b.head.vars) :
    b.columns v = .ok (b.columnsOf v) := by
  have hne := columnsOf_ne_nil_iff.mpr hv
  unfold columns
  split
  · rename_i h
    exact absurd h hne
  · rfl

theorem mem_vars {b : Batch} {v : String} : v ∈ b.vars ↔ v ∈ b.head.vars := List.mem_eraseDups

theorem mem_shared {a b : Batch} {v : String} :
    v ∈ a.shared b ↔ v ∈ a.head.vars ∧ v ∈ b.head.vars := by
  rw [shared, List.mem_filter, mem_vars, List.contains_iff_mem]

theorem forall₂_zipIdx (v : String) (vars : List String) (done : Row) {s : Row}
    (hs : s.length = vars.length) : List.Forall₂ (fun c x => (done ++ s)[c]? = some x)
      ((vars.zipIdx done.length).filterMap fun c => if c.1 = v then some c.2 else none)
      (cellsOf vars v s) := by
  induction vars generalizing done s with
  | nil => exact List.Forall₂.nil
  | cons w vars ih =>
      cases s with
      | nil => cases hs
      | cons x s =>
          have htail := ih (done ++ [x]) (Nat.succ.inj hs)
          rw [List.append_assoc, List.length_append, List.length_singleton] at htail
          have hx : (done ++ x :: s)[done.length]? = some x := by simp
          by_cases hw : w = v
          · simpa [cellsOf, hw] using And.intro hx htail
          · simpa [cellsOf, hw] using htail

/-- Reading the columns of a variable one by one gives its cells. -/
theorem forall₂_columnsOf {b : Batch} {r : Row} (hr : r.length = b.head.vars.length)
    (v : String) : List.Forall₂ (fun c x => r[c]? = some x) (b.columnsOf v)
      (cellsOf b.head.vars v r) :=
  forall₂_zipIdx v b.head.vars [] hr

theorem forall₂_cell {b : Batch} {r : Row} (hr : r.length = b.head.vars.length) (v : String) :
    List.Forall₂ (fun c x => r.cell c = .ok x) (b.columnsOf v) (cellsOf b.head.vars v r) := by
  apply (forall₂_columnsOf hr v).imp
  intro c x hcx
  rw [Row.cell, hcx]

theorem head?_zipIdx (v : String) (vars : List String) (n : Nat) (r : Row) :
    (((vars.zipIdx n).filterMap fun c => if c.1 = v then some c.2 else none).head?.bind
      fun c => r[c]?) = List.lookup v (vars.zip (r.drop n)) := by
  induction vars generalizing n with
  | nil => rfl
  | cons w vars ih =>
      have hrest := ih (n + 1)
      rw [List.zipIdx_cons, List.filterMap_cons]
      cases hdrop : r.drop n with
      | nil =>
          have hle : r.length ≤ n := List.drop_eq_nil_iff.mp hdrop
          rw [List.drop_eq_nil_iff.mpr (Nat.le_succ_of_le hle), List.zip_nil_right] at hrest
          split_ifs with hw
          · exact List.getElem?_eq_none hle
          · exact hrest
      | cons x xs =>
          have hx : r[n]? = some x := by
            rw [← List.head?_drop, hdrop]
            rfl
          have hxs : r.drop (n + 1) = xs := by
            rw [← List.drop_drop, hdrop]
            rfl
          rw [hxs] at hrest
          rw [List.zip_cons_cons, List.lookup_cons]
          split_ifs with hw
          · obtain rfl : w = v := hw
            rw [beq_self_eq_true]
            exact hx
          · have hne : (v == w) = false := by simpa using Ne.symm hw
            rw [hne]
            exact hrest

/-- To look a variable up in a labelled row is to read its first column. -/
theorem lookup_vars_zip (b : Batch) (v : String) (r : Row) :
    List.lookup v (b.head.vars.zip r) = (b.columnsOf v).head?.bind fun c => r[c]? :=
  (head?_zipIdx v b.head.vars 0 r).symm

theorem head?_columnsOf_eq_none_iff {b : Batch} {v : String} :
    (b.columnsOf v).head? = none ↔ v ∉ b.head.vars := by
  rw [← columnsOf_ne_nil_iff, List.head?_eq_none_iff, not_not]

end Batch

end Conjunctive
