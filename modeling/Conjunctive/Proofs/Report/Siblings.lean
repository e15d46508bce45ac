import Conjunctive.Report
import Conjunctive.Proofs.Lists
import Conjunctive.Proofs.Report.Numerals
import Mathlib.Data.List.Basic
import Mathlib.Data.List.Forall2

/-!
# Reports of batches put together

All cells of a column settle its type, and in a column of floats an integer is
written as a float. Hence the lines of a batch may change when another batch
follows it, and they do exactly if a column with one of its integers becomes a
column of floats, or no longer is one. That the texts differ then needs an
argument of its own: a text that changes has no separator in it, so the fields
are found again in a report. Which types the columns get, and whether a table
can be made and written at all, is left to the library.
-/

namespace Conjunctive

namespace Report

/-! ### Fields and lines -/

variable {library : TableLibrary}

theorem not_isSeparator_of_isNumberSign {c : Char} (h : isNumberSign c = true) :
    isSeparator library c = false := by
  rw [Bool.eq_false_iff]
  intro hsep
  simp only [isSeparator, Bool.or_eq_true, Bool.and_eq_true, beq_iff_eq] at hsep
  rcases hsep with ((rfl | rfl) | rfl) | ⟨-, rfl⟩ <;> revert h <;> decide

theorem field_eq_self {s : String} (h : IsNumeral s) : field library s = s := by
  have hplain : s.toList.any (isSeparator library) = false := by
    rw [List.any_eq_false]
    intro c hc
    rw [not_isSeparator_of_isNumberSign (h c hc)]
    exact Bool.false_ne_true
  dsimp only [field]
  rw [hplain, if_neg Bool.false_ne_true]

theorem cellText_int (t : ColumnType) (n : Int) : cellText t (.int n) =
    if t = .float64 then FloatStyle.cell.write (Literal.ofInt n) else toString n := by
  cases t <;> rfl

/-- Only an integer is written by the type of its column. -/
theorem cellText_eq_iff {t t' : ColumnType} {v : Value} : cellText t v = cellText t' v ↔
    ∀ n, v = .int n → (t = .float64 ↔ t' = .float64) := by
  cases v with
  | int n =>
      have hne := (FloatStyle.isFloatNumeral_write (Literal.ofInt n)).ne_toString n
      have hiff : cellText t (.int n) = cellText t' (.int n) ↔
          (t = .float64 ↔ t' = .float64) := by
        rw [cellText_int, cellText_int]
        by_cases ht : t = .float64 <;> by_cases ht' : t' = .float64
        · rw [if_pos ht, if_pos ht']
          exact iff_of_true rfl (iff_of_true ht ht')
        · rw [if_pos ht, if_neg ht']
          exact iff_of_false hne fun h => ht' (h.mp ht)
        · rw [if_neg ht, if_pos ht']
          exact iff_of_false hne.symm fun h => ht (h.mpr ht')
        · rw [if_neg ht, if_neg ht']
          exact iff_of_true rfl (iff_of_false ht ht')
      exact hiff.trans ⟨fun h _ _ => h, fun h => h n rfl⟩
  | _ => exact iff_of_true rfl fun n hn => nomatch hn

/-- Texts that one cell may have in columns of different types. -/
inductive Variants : String → String → Prop
  | same (s : String) : Variants s s
  | numerals {s t : String} (hs : IsNumeral s) (ht : IsNumeral t) : Variants s t

theorem variants_cellText (t t' : ColumnType) (v : Value) :
    Variants (cellText t v) (cellText t' v) := by
  have hint : ∀ t n, IsNumeral (cellText t (.int n)) := by
    intro t n
    rw [cellText_int]
    split_ifs
    · exact (FloatStyle.isFloatNumeral_write _).isNumeral
    · exact isNumeral_toString n
  cases v with
  | int n => exact .numerals (hint t n) (hint t' n)
  | _ => exact .same _

/-- Two texts of a cell, with a separator behind them, can be told from what follows. -/
theorem Variants.eq_of_append {s s' : String} (h : Variants s s') {c : Char}
    (hc : isNumberSign c = false) {r r' : List Char}
    (heq : (field library s).toList ++ c :: r = (field library s').toList ++ c :: r') :
    s = s' ∧ r = r' := by
  cases h with
  | same => exact ⟨rfl, (List.cons.inj (List.append_cancel_left heq)).2⟩
  | numerals hs ht =>
      have hnot : ∀ {t : String}, IsNumeral t → c ∉ t.toList := by
        intro t ht hmem
        rw [ht c hmem] at hc
        cases hc
      rw [field_eq_self hs, field_eq_self ht] at heq
      obtain ⟨htext, hrest⟩ := eq_of_append_cons (hnot hs) (hnot ht) heq
      exact ⟨String.toList_inj.mp htext, hrest⟩

theorem toList_line_singleton (s : String) :
    (line library [s]).toList = (field library s).toList ++ ['\n'] := by
  rw [line, String.toList_append, List.map_singleton, String.intercalate_singleton]
  rfl

theorem toList_line_cons_cons (s t : String) (fields : List String) :
    (line library (s :: t :: fields)).toList =
      (field library s).toList ++ ',' :: (line library (t :: fields)).toList := by
  simp [line]

theorem eq_of_line_append {fields fields' : List String} (h : List.Forall₂ Variants fields fields')
    (hne : fields ≠ []) {r r' : List Char}
    (heq : (line library fields).toList ++ r = (line library fields').toList ++ r') :
    fields = fields' ∧ r = r' := by
  induction h with
  | nil => exact absurd rfl hne
  | cons hs hrest ih =>
      cases hrest with
      | nil =>
          rw [toList_line_singleton, toList_line_singleton, List.append_assoc,
            List.append_assoc] at heq
          obtain ⟨hfield, hr⟩ := hs.eq_of_append (by decide) heq
          exact ⟨congrArg (fun s => [s]) hfield, hr⟩
      | cons ht hrest =>
          rw [toList_line_cons_cons, toList_line_cons_cons, List.append_assoc,
            List.append_assoc, List.cons_append, List.cons_append] at heq
          obtain ⟨hfield, hrest⟩ := hs.eq_of_append (by decide) heq
          obtain ⟨hfields, hr⟩ := ih (List.cons_ne_nil _ _) hrest
          exact ⟨congrArg₂ List.cons hfield hfields, hr⟩

/-- The lines of a table give back its fields. -/
theorem eq_of_join_lines {table table' : List (List String)}
    (h : List.Forall₂ (List.Forall₂ Variants) table table') (hne : ∀ fields ∈ table, fields ≠ [])
    (heq : String.join (table.map (line library)) = String.join (table'.map (line library))) :
    table = table' := by
  induction h with
  | nil => rfl
  | cons hfields _ ih =>
      rw [List.map_cons, List.map_cons, String.join_cons, String.join_cons, ← String.toList_inj,
        String.toList_append, String.toList_append] at heq
      obtain ⟨rfl, hrest⟩ := eq_of_line_append hfields (hne _ (List.mem_cons_self ..)) heq
      rw [ih (fun fields hmem => hne fields (List.mem_cons_of_mem _ hmem))
        (String.toList_inj.mp hrest)]

/-! ### Columns -/

theorem length_of_mem_rows {outcomes : List Outcome} {r : Row} (h : r ∈ rows outcomes) :
    r.length = columns.length := by
  obtain ⟨o, -, hr⟩ := List.mem_flatMap.mp h
  unfold rowsOf at hr
  dsimp only at hr
  split at hr
  · rw [List.mem_singleton.mp hr]
    rfl
  · rw [List.mem_singleton.mp hr]
    rfl
  · split at hr
    · rw [List.mem_singleton.mp hr]
      rfl
    · obtain ⟨cells, -, rfl⟩ := List.mem_map.mp hr
      rfl

section Table

variable (library : TableLibrary)

/-- The type of the column at a position. -/
def columnType (table : List Row) (i : Nat) : ColumnType :=
  library.columnType (table.map fun r => r.getD i .null)

theorem columnTypes_eq (table : List Row) :
    columnTypes library table = (List.range columns.length).map (columnType library table) := by
  rw [columnTypes, cellsByColumn, List.map_map]
  rfl

/-- The fields of a table that is written with the columns of another. -/
def fields (all table : List Row) : List (List String) :=
  table.map fun r => List.zipWith cellText (columnTypes library all) r

/-- The lines of the report of a batch, without the names of the columns. -/
def data? (outcomes : List Outcome) : Except TableError String :=
  match fault? library (rows outcomes) with
  | some e => .error e
  | none =>
    .ok (String.join ((fields library (rows outcomes) (rows outcomes)).map (line library)))

/-- Whether the columns with an integer of a table are columns of floats in another one if
and only if they are so there. -/
def KeepsIntegers (table all : List Row) : Prop :=
  ∀ i < columns.length, ∀ r ∈ table, ∀ n, r[i]? = some (.int n) →
    (columnType library table i = .float64 ↔ columnType library all i = .float64)

end Table

theorem data?_eq_ok_iff {outcomes : List Outcome} {s : String} : data? library outcomes = .ok s ↔
    fault? library (rows outcomes) = none ∧
      s = String.join ((fields library (rows outcomes) (rows outcomes)).map (line library)) := by
  rw [data?]
  split
  next e h => simp [h]
  next h => simp [h, eq_comm]

/-- A report has the names of the columns in front of the lines. -/
theorem text?_eq_map (outcomes : List Outcome) :
    text? library outcomes = (data? library outcomes).map (line library columns ++ ·) := by
  rw [text?, data?]
  cases fault? library (rows outcomes) with
  | some e => rfl
  | none =>
      rw [fields, List.map_map, String.join_cons]
      rfl

theorem getElem?_zipWith_cellText (f : Nat → ColumnType) (k i : Nat) (r : Row) :
    (List.zipWith cellText ((List.range k).map f) r)[i]? =
      if i < k then r[i]?.map (cellText (f i)) else none := by
  rw [List.getElem?_zipWith, List.getElem?_map]
  split_ifs with hi
  · rw [List.getElem?_range hi]
    cases r[i]? <;> rfl
  · rw [List.getElem?_eq_none (by rw [List.length_range]; exact Nat.le_of_not_lt hi)]
    rfl

theorem zipWith_cellText_eq_iff {f g : Nat → ColumnType} {k : Nat} {r : Row} :
    List.zipWith cellText ((List.range k).map f) r =
        List.zipWith cellText ((List.range k).map g) r ↔
      ∀ i < k, ∀ n, r[i]? = some (.int n) → (f i = .float64 ↔ g i = .float64) := by
  rw [List.ext_getElem?_iff]
  refine forall_congr' fun i => ?_
  rw [getElem?_zipWith_cellText, getElem?_zipWith_cellText]
  by_cases hi : i < k
  · rw [if_pos hi, if_pos hi]
    cases r[i]? with
    | none => exact iff_of_true rfl fun _ n hn => nomatch hn
    | some v => simp only [Option.map_some, Option.some_inj, cellText_eq_iff, hi, forall_const]
  · rw [if_neg hi, if_neg hi]
    exact iff_of_true rfl fun h => absurd h hi

theorem fields_eq_iff {all table : List Row} :
    fields library all table = fields library table table ↔ KeepsIntegers library table all := by
  rw [fields, fields, List.map_inj_left, columnTypes_eq, columnTypes_eq]
  constructor
  · intro h i hi r hr n hn
    exact (zipWith_cellText_eq_iff.mp (h r hr) i hi n hn).symm
  · intro h r hr
    exact zipWith_cellText_eq_iff.mpr fun i hi n hn => (h i hi r hr n hn).symm

theorem forall₂_variants_zipWith (r : Row) {types types' : List ColumnType}
    (h : types.length = types'.length) :
    List.Forall₂ Variants (List.zipWith cellText types r) (List.zipWith cellText types' r) := by
  induction r generalizing types types' with
  | nil =>
      rw [List.zipWith_nil_right, List.zipWith_nil_right]
      exact .nil
  | cons v r ih =>
      cases types with
      | nil =>
          rw [List.eq_nil_of_length_eq_zero h.symm]
          exact .nil
      | cons t types =>
          cases types' with
          | nil => cases h
          | cons t' types' => exact .cons (variants_cellText t t' v) (ih (Nat.succ.inj h))

theorem forall₂_variants_fields (library : TableLibrary) (all all' table : List Row) :
    List.Forall₂ (List.Forall₂ Variants) (fields library all table)
      (fields library all' table) := by
  rw [fields, fields, List.forall₂_map_left_iff, List.forall₂_map_right_iff, List.forall₂_same]
  exact fun r _ => forall₂_variants_zipWith r (by simp only [columnTypes_eq, List.length_map])

theorem ne_nil_of_mem_fields {outcomes : List Outcome} {all : List Row} {l : List String}
    (h : l ∈ fields library all (rows outcomes)) : l ≠ [] := by
  obtain ⟨r, hr, rfl⟩ := List.mem_map.mp h
  rw [← List.length_pos_iff, List.length_zipWith, columnTypes_eq, List.length_map,
    List.length_range, length_of_mem_rows hr]
  decide

/-- The lines of two batches make up the lines of one report if and only if no column with
an integer becomes, or ceases to be, one of floats. -/
theorem join_fields_append_iff (xs ys : List Outcome) :
    String.join ((fields library (rows (xs ++ ys)) (rows (xs ++ ys))).map (line library)) =
        String.join ((fields library (rows xs) (rows xs)).map (line library)) ++
          String.join ((fields library (rows ys) (rows ys)).map (line library)) ↔
      KeepsIntegers library (rows xs) (rows (xs ++ ys)) ∧
        KeepsIntegers library (rows ys) (rows (xs ++ ys)) := by
  have hfields : fields library (rows (xs ++ ys)) (rows (xs ++ ys)) =
      fields library (rows (xs ++ ys)) (rows xs) ++
        fields library (rows (xs ++ ys)) (rows ys) := by
    have hrows : rows (xs ++ ys) = rows xs ++ rows ys := List.flatMap_append
    rw [fields, fields, fields, ← List.map_append, ← hrows]
  have hvariants := List.rel_append
    (forall₂_variants_fields library (rows (xs ++ ys)) (rows xs) (rows xs))
    (forall₂_variants_fields library (rows (xs ++ ys)) (rows ys) (rows ys))
  rw [hfields, ← String.join_append, ← List.map_append]
  constructor
  · -- the fields can be read off the lines, whatever the types of the columns are
    intro h
    have htable := eq_of_join_lines hvariants ?_ h
    · obtain ⟨hxs, hys⟩ := List.append_inj htable (by simp [fields])
      exact ⟨fields_eq_iff.mp hxs, fields_eq_iff.mp hys⟩
    · intro l hl
      exact (List.mem_append.mp hl).elim ne_nil_of_mem_fields ne_nil_of_mem_fields
  · rintro ⟨hxs, hys⟩
    rw [fields_eq_iff.mpr hxs, fields_eq_iff.mpr hys]

/-- Two batches have reports, and one report together in which their lines stay as they are,
if and only if nothing keeps the three from being written and no column with an integer
becomes, or ceases to be, one of floats. -/
theorem text?_append_iff (library : TableLibrary) (xs ys : List Outcome) :
    (∃ a b, data? library xs = .ok a ∧ data? library ys = .ok b ∧
        text? library (xs ++ ys) = .ok (line library columns ++ a ++ b)) ↔
      fault? library (rows xs) = none ∧ fault? library (rows ys) = none ∧
        fault? library (rows (xs ++ ys)) = none ∧
        KeepsIntegers library (rows xs) (rows (xs ++ ys)) ∧
        KeepsIntegers library (rows ys) (rows (xs ++ ys)) := by
  have htext : ∀ a b, text? library (xs ++ ys) = .ok (line library columns ++ a ++ b) ↔
      data? library (xs ++ ys) = .ok (a ++ b) := by
    intro a b
    rw [text?_eq_map, String.append_assoc]
    cases data? library (xs ++ ys) with
    | error e => exact iff_of_false nofun nofun
    | ok s => simp [Except.map]
  simp only [htext, data?_eq_ok_iff]
  constructor
  · rintro ⟨_, _, ⟨hxs, rfl⟩, ⟨hys, rfl⟩, hall, hlines⟩
    exact ⟨hxs, hys, hall, (join_fields_append_iff xs ys).mp hlines.symm⟩
  · rintro ⟨hxs, hys, hall, hkeep⟩
    exact ⟨_, _, ⟨hxs, rfl⟩, ⟨hys, rfl⟩, hall, ((join_fields_append_iff xs ys).mpr hkeep).symm⟩

def counted : Outcome :=
  ⟨1, "Answer(x) :- Count(x).", .answered ⟨.ofVars ["x"], [.free "Count" [.variable "x"]]⟩
    (.batch ⟨.ofVars ["x"], [[.int 1], [.int 9007199254740993]]⟩)⟩

def unknown : Outcome := ⟨2, "Answer(x) :- Missing(x).", .rejected (.unknownRelation "Missing")⟩

/-- The cells of a rejected query are empty, and an integer above them loses its last digit. -/
theorem text_counted_unknown :
    text? .usual ([counted] ++ [unknown]) = .ok (line .usual columns ++
        "1,True,,1.0,,,\n1,True,,9007199254740992.0,,,\n" ++ "2,,,,,,\n") ∧
      data? .usual [counted] = .ok "1,True,,1,,,\n1,True,,9007199254740993,,,\n" ∧
      data? .usual [unknown] = .ok "2,,,,,,\n" ∧
      text? .usual ([counted] ++ [unknown]) ≠ .ok (line .usual columns ++
        "1,True,,1,,,\n1,True,,9007199254740993,,,\n" ++ "2,,,,,,\n") := by
  decide +kernel

end Report

end Conjunctive
