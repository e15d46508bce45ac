import Conjunctive.Value.Row
import Conjunctive.Text.Quoted

/-!
# Relations

A relation has a name, column names that may repeat, and rows as wide as its
columns. A cell of a relation is never a float that is not a number: such a
cell is missing, so that cells are equal whenever they are the same.

A relation without rows keeps only the first of several equal column names.
Versions of the library for tables differ in whether a table without columns
hands out its rows, which have no cells, or only counts them.
-/

namespace Conjunctive

/-- How the cells of a relation are stored: all columns together, or each
column on its own. -/
inductive Storage where
  | together
  | byColumn
  deriving DecidableEq

/-- A cell as a relation stores it: what is not a number is missing. -/
def Value.stored (v : Value) : Value := if v.isNotANumber then .null else v

theorem Value.isNotANumber_stored (v : Value) : v.stored.isNotANumber = false := by
  unfold stored
  split
  next => rfl
  next h => exact Bool.eq_false_iff.mpr h

/-- A named table of rows that are as wide as its columns. -/
structure Relation where
  name : Option String
  storage : Storage
  columns : List String
  rows : List Row
  /-- The number of rows that are counted but not handed out. -/
  hidden : Nat := 0
  width_eq : ∀ r ∈ rows, r.length = columns.length
  definite : ∀ r ∈ rows, ∀ v ∈ r, v.isNotANumber = false

namespace Relation

/-- The number of columns. -/
def arity (r : Relation) : Nat := r.columns.length

/-- The number of rows, those that are not handed out included. -/
def size (r : Relation) : Nat := r.rows.length + r.hidden

theorem definite_nil : ∀ r ∈ ([] : List Row), ∀ v ∈ r, v.isNotANumber = false := nofun

/-- The relation with the given rows, or the length of the first row whose
length differs from the number of columns. The flag says whether a table without
columns hands out its rows. -/
def ofRows? (name : Option String) (columns : List String) (rows : List Row)
    (handsOut : Bool := true) : Except Nat Relation :=
  match h : rows.find? (fun r => r.length != columns.length) with
  | some r => .error r.length
  | none =>
    if rows.isEmpty then
      .ok
        { name
          storage := .together
          columns := columns.eraseDups
          rows := []
          width_eq := by simp
          definite := definite_nil }
    else if columns.isEmpty && !handsOut then
      .ok
        { name
          storage := .together
          columns
          rows := []
          hidden := rows.length
          width_eq := by simp
          definite := definite_nil }
    else
      .ok
        { name
          storage := .together
          columns
          rows := rows.map (·.map Value.stored)
          width_eq := by
            intro r hr
            obtain ⟨s, hs, rfl⟩ := List.mem_map.mp hr
            have := List.find?_eq_none.mp h s hs
            simpa using this
          definite := by
            intro r hr v hv
            obtain ⟨s, -, rfl⟩ := List.mem_map.mp hr
            obtain ⟨w, -, rfl⟩ := List.mem_map.mp hv
            exact w.isNotANumber_stored }

/-- The wording for a row of the wrong length. -/
def widthMessage (name : Option String) (columns found : Nat) : String :=
  "Row length " ++ toString found ++ " does not match schema length " ++ toString columns
    ++ " for relation " ++ name.getD "None"

/-- The relation under a name if it has none yet. -/
def named (r : Relation) (name : String) : Relation :=
  { r with name := some (r.name.getD name) }

/-- The rows as records, one entry for each column name. Of several columns
with one name the last gives the value. -/
def records (r : Relation) : List (List (String × Value)) :=
  r.rows.map fun row =>
    r.columns.eraseDups.filterMap fun c =>
      ((r.columns.zip row).reverse.find? fun cell => cell.1 == c)

/-- A relation as shown to a reader. -/
def display (r : Relation) : String :=
  let name := match r.name with
    | some n => Text.quoted n
    | none => "None"
  "Relation(" ++ name ++ ", columns=" ++ Text.quotedList r.columns ++ ", rows="
    ++ toString r.size ++ ")"

end Relation

end Conjunctive
