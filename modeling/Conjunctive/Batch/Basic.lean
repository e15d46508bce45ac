import Conjunctive.Query.Basic
import Conjunctive.Value.Kind

/-!
# Batches

A batch is a bag of rows under a head. The head labels the columns by
variables, and a variable may label several columns. Rows are not checked
against the head when a batch is made, so reading a cell may fail; all batches
that arise in the evaluation of a query are as wide as their heads. Rows that are looked
up have to consist of keys, so a list in a cell is a failure there.
-/

namespace Conjunctive

/-- Why an operation on batches fails. -/
inductive BatchError where
  /-- A row is too short for a column. -/
  | columnOutOfRange
  /-- A batch has no column for a variable. -/
  | variableAbsent (name : String)
  /-- A row that is looked up has a cell of a kind that is no key. -/
  | notAKey (kind : String)
  deriving DecidableEq

namespace BatchError

/-- The wording of an error, except for those that are told by their kind alone. -/
def message? : BatchError → Option String
  | notAKey kind => some ("unhashable type: '" ++ kind ++ "'")
  | columnOutOfRange | variableAbsent _ => none

end BatchError

namespace Row

def cell (r : Row) (column : Nat) : Except BatchError Value :=
  match r[column]? with
  | some v => .ok v
  | none => .error .columnOutOfRange

/-- Check that all cells of a row are keys. -/
def checkKeys (r : Row) : Except BatchError Unit :=
  match r.find? fun v => !v.isKey with
  | some v => .error (.notAKey v.kind)
  | none => .ok ()

end Row

/-- Rows under a head. -/
structure Batch where
  head : Head
  rows : List Row

namespace Batch

/-- The batch without rows under a head. -/
def empty (head : Head) : Batch := ⟨head, []⟩

def isEmpty (b : Batch) : Bool := b.rows.isEmpty

/-- Whether all rows are as wide as the head. -/
def WellShaped (b : Batch) : Prop := ∀ r ∈ b.rows, r.length = b.head.vars.length

/-- The variables of a batch, each once, in column order. -/
def vars (b : Batch) : List String := b.head.vars.eraseDups

/-- The columns that a variable labels. -/
def columnsOf (b : Batch) (v : String) : List Nat :=
  b.head.vars.zipIdx.filterMap fun c => if c.1 = v then some c.2 else none

/-- The columns that a variable labels, of which there must be one. -/
def columns (b : Batch) (v : String) : Except BatchError (List Nat) :=
  match b.columnsOf v with
  | [] => .error (.variableAbsent v)
  | cs => .ok cs

/-- The variables that two batches share, in the column order of the first. -/
def shared (a b : Batch) : List String :=
  a.vars.filter fun v => b.head.vars.contains v

/-- Check that all cells of a batch are keys. -/
def checkKeys (b : Batch) : Except BatchError Unit := b.rows.forM Row.checkKeys

/-- The rows without repetitions, each at its first occurrence. -/
def distinct (b : Batch) : Except BatchError Batch := do
  b.checkKeys
  pure ⟨b.head, Row.distinct b.rows⟩

/-- The rows as records. A variable takes its value from its first column. -/
def records (b : Batch) : Except BatchError (List (List (String × Value))) :=
  let firsts := b.vars.filterMap fun v => (b.columnsOf v).head?.map fun c => (v, c)
  b.rows.mapM fun r => firsts.mapM fun f => do
    let v ← r.cell f.2
    pure (f.1, v)

/-- A batch as shown to a reader. -/
def display (b : Batch) : String :=
  "QueryResult(head=" ++ b.head.display ++ ", rows=" ++ toString b.rows.length ++ ")"

end Batch

end Conjunctive
