import Conjunctive.Outcome
import Conjunctive.Number.Literal
import Conjunctive.Number.FloatText

/-!
# Reports

The outcomes of a batch are written as one table in delimited text. An answer
that is a batch takes one row for each of its rows, the first four cells of
which fill four slots; any other outcome takes a single row, and so does a
batch without rows.

The cells of a column are written by the type of the column: in a column of
type `float64` an integer is written as a float. A missing cell is empty. A
field is put between quotation marks if it holds a comma, a quotation mark or a
newline. A column without a type makes no table, and an integer of too many
digits is not written.

The types of columns are settled by the library that makes the table. Versions of
the one that writes it differ in whether a carriage return needs quotation marks.
-/

namespace Conjunctive

/-- What the libraries settle that make a table and write it. -/
structure TableLibrary where
  /-- The type of the column with some cells, if it has one. -/
  columnType? : List Value → Option ColumnType
  /-- Whether a field with a carriage return is put between quotation marks. -/
  quotesReturn : Bool

namespace TableLibrary

/-- The libraries in use: a carriage return needs no quotation marks. -/
def usual : TableLibrary := ⟨ColumnType.ofCells?, false⟩

/-- The type of the column with some cells. Without one it counts as `object`. -/
def columnType (library : TableLibrary) (cells : List Value) : ColumnType :=
  (library.columnType? cells).getD .object

end TableLibrary

namespace Report

/-- The slots for the cells of an answer. -/
def slots : List String := ["x", "y", "z", "w"]

/-- The columns of a report. -/
def columns : List String :=
  ["query_id", "is_acyclic", "bool_answer"] ++ slots.map fun s => "attr_" ++ s ++ "_answer"

/-- The slots filled with the first cells of a row. -/
def fillSlots (r : Row) : Row :=
  (List.range slots.length).map fun i => r.getD i .null

def rowsOf (o : Outcome) : List Row :=
  let acyclic := match o.verdict.isAcyclic? with
    | some b => Value.bool b
    | none => .null
  let row (truth : Value) (cells : Row) : Row :=
    [.int o.id, acyclic, truth] ++ fillSlots cells
  match o.verdict.answer? with
  | none => [row .null []]
  | some (.truth b) => [row (.bool b) []]
  | some (.batch b) =>
    match b.rows with
    | [] => [row .null []]
    | rows => rows.map (row .null)

/-- The rows of a report. -/
def rows (outcomes : List Outcome) : List Row := outcomes.flatMap rowsOf

/-- A cell as it is written in a column of the given type. -/
def cellText (type : ColumnType) (v : Value) : String :=
  match v, type with
  | .null, _ => ""
  | .int n, .float64 => FloatStyle.cell.write (Literal.ofInt n)
  | v, _ => if v.isNotANumber then "" else v.display

section Library

variable (library : TableLibrary)

/-- Whether a character puts its field between quotation marks. -/
def isSeparator (c : Char) : Bool :=
  c == ',' || c == Text.quotationMark || c == '\n' || (library.quotesReturn && c == '\r')

/-- A field, between quotation marks if it needs them. -/
def field (s : String) : String :=
  let cs := s.toList
  let quote := Text.quotationMark
  if cs.any (isSeparator library) then
    String.ofList (quote :: cs.flatMap (fun c => if c = quote then [c, c] else [c]) ++ [quote])
  else s

def line (fields : List String) : String :=
  String.intercalate "," (fields.map (field library)) ++ "\n"

/-- The cells of the columns of a table. -/
def cellsByColumn (table : List Row) : List (List Value) :=
  (List.range columns.length).map fun i => table.map fun r => r.getD i .null

def columnTypes (table : List Row) : List ColumnType :=
  (cellsByColumn table).map library.columnType

/-- What keeps the rows of a report from being written: a column without a type, or an
integer that has too many digits and is not written as a float. -/
def fault? (table : List Row) : Option TableError :=
  let cells := cellsByColumn table
  if cells.any fun vs => (library.columnType? vs).isNone then some .tooLarge
  else if cells.any fun vs =>
      decide (library.columnType vs ≠ .float64) && vs.any Value.isOverlong then
    some .overlong
  else none

/-- The text of a report. -/
def text? (outcomes : List Outcome) : Except TableError String :=
  let table := rows outcomes
  let types := columnTypes library table
  match fault? library table with
  | some e => .error e
  | none =>
    .ok (String.join (line library columns ::
      table.map fun r => line library (List.zipWith cellText types r)))

end Library

end Report

end Conjunctive
