import Conjunctive.Relation.Basic
import Conjunctive.Batch.Basic
import Conjunctive.Number.Literal

/-!
# Column types

The cells of a column have a common type if they are all truth values, all
texts, or all numbers; missing cells go with texts and with floats. Integers
must fit into 64 bits, signed or unsigned but not partly one and partly the
other, except for those that come after a missing cell: these are not looked
at, since the column holds floats then. Any other column is of type `object`,
and so is a column that holds nothing.

The cells are looked at one by one until the type is settled, and each integer
as a float too. So a column with an integer that is too large for a float has
no type, if the integer is reached.
-/

namespace Conjunctive

/-- The type of the cells of a column. -/
inductive ColumnType where
  | object
  | bool
  | text
  | int64
  | uint64
  | float64
  deriving DecidableEq

namespace ColumnType

def name : ColumnType → String
  | object => "object"
  | bool => "bool"
  | text => "str"
  | int64 => "int64"
  | uint64 => "uint64"
  | float64 => "float64"

/-- The integers of at most 64 bits with a sign. -/
def isSigned64 (n : Int) : Bool := decide (-Int.pow 2 63 ≤ n) && decide (n < Int.pow 2 63)

/-- The integers of at most 64 bits without a sign. -/
def isUnsigned64 (n : Int) : Bool := decide (0 ≤ n) && decide (n < Int.pow 2 64)

/-- Whether a cell is missing. -/
def isMissing : Value → Bool
  | .null => true
  | _ => false

/-- Whether a cell is a truth value. -/
def isBool : Value → Bool
  | .bool _ => true
  | _ => false

/-- Whether a cell is a text. -/
def isText : Value → Bool
  | .text _ => true
  | _ => false

/-- The integer that a cell is. -/
def int? : Value → Option Int
  | .int n => some n
  | _ => none

/-- Whether a cell is an integer or a float. -/
def isNumber : Value → Bool
  | .int _ => true
  | .float _ _ => true
  | _ => false

/-- Whether integers fit into 64 bits, all with a sign or all without one. -/
def fit (ns : List Int) : Bool := ns.all isSigned64 || ns.all isUnsigned64

/-- Whether an integer is too large for a float. -/
def isTooLarge (n : Int) : Bool := decide (Nat.pow 2 1024 - Nat.pow 2 970 ≤ n.natAbs)

/-- Whether the search for the type of a column reaches an integer that is too large for a
float. Before it stand the given integers, and perhaps a missing cell. A text ends the
search, and so does an integer that does not fit, unless a cell is missing. -/
def overflows (missing : Bool) (ns : List Int) : List Value → Bool
  | [] => false
  | .int n :: cells =>
    isTooLarge n ||
      if missing then overflows true ns cells
      else fit (n :: ns) && overflows false (n :: ns) cells
  | .null :: cells => overflows true ns cells
  | .bool _ :: cells | .float _ _ :: cells => overflows missing ns cells
  | _ :: _ => false

/-- The type of the column with some cells, if it has one. -/
def ofCells? (cells : List Value) : Option ColumnType :=
  let checked := (cells.takeWhile fun v => !isMissing v).filterMap int?
  if overflows false [] cells then none
  else if cells.all isMissing then some object
  else if cells.all isBool then some bool
  else if cells.any isText && cells.all fun v => isText v || isMissing v || v.isNotANumber then
    some text
  else if (cells.all fun v => isNumber v || isMissing v) && fit checked then
    if checked.length < cells.length then some float64
    else if checked.all isSigned64 then some int64
    else some uint64
  else some object

end ColumnType

/-- Why a table cannot be made or written. -/
inductive TableError where
  /-- The rows are not as wide as there are columns. -/
  | width (columns found : Nat)
  /-- An integer is too large for a float. -/
  | tooLarge
  /-- An integer has too many digits to be written. -/
  | overlong
  deriving DecidableEq

namespace TableError

/-- The wording of an error, except for those that are told by their kind alone. -/
def message? : TableError → Option String
  | width columns found =>
    some (toString columns ++ " columns passed, passed data had " ++ toString found ++ " columns")
  | tooLarge => none
  | overlong => some Literal.unwritableMessage

end TableError

namespace Relation

/-- The cells of the column at a position. -/
def column (r : Relation) (i : Nat) : List Value := r.rows.map fun row => row.getD i .null

/-- The types of the columns, by position. Columns that are stored together and
are all texts or objects are told as objects, unless there is only one. -/
def typesByPosition? (r : Relation) : Option (List ColumnType) := do
  let types ← (List.range r.arity).mapM fun i => ColumnType.ofCells? (r.column i)
  if r.storage = .together ∧ r.arity ≠ 1
      ∧ types.all fun t => decide (t = .object ∨ t = .text) then
    some (types.map fun _ => .object)
  else some types

/-- Each column name with the type of the last column that has it. -/
def columnTypes? (r : Relation) : Option (List (String × ColumnType)) :=
  r.typesByPosition?.map fun types =>
    r.columns.eraseDups.filterMap fun c => (r.columns.zip types).reverse.find? fun p => p.1 == c

end Relation

namespace Batch

/-- The width of the widest row. -/
def width (b : Batch) : Nat := b.rows.foldl (fun n r => max n r.length) 0

/-- The types of the columns of a batch as a table. A batch without columns has none. -/
def columnTypes? (b : Batch) : Except TableError (List ColumnType) :=
  let columns := b.head.vars.length
  if columns = 0 then .ok []
  else if b.isEmpty ∨ b.width = columns then
    (List.range columns).mapM fun i =>
      match ColumnType.ofCells? (b.rows.map fun row => row.getD i .null) with
      | some type => .ok type
      | none => .error .tooLarge
  else .error (.width columns b.width)

end Batch

end Conjunctive
