import Conjunctive.Relation.CellText

/-!
# Relations from delimited text

The first line that is not blank names the columns; each further one is a row.
Fields are separated by a delimiter, spaces before a field are dropped, and a
field that begins with a quotation mark runs to the closing one: in it, two
quotation marks stand for one, and delimiters and line ends are plain text.
What follows the closing mark is added as it is.

Short rows are padded with missing cells. If the first row is longer than the
header, the fields in front that are too many label the rows and belong to no
column. No row may be longer than the header and the first row are.

The text is read one character at a time by a `Reader`, which keeps the field
and the record at hand and the number of lines passed. A field ends for good at a null
character in it.
-/

namespace Conjunctive

/-- Why a delimited text holds no relation. -/
inductive DelimitedError where
  /-- There is no header. -/
  | noColumns
  /-- A row is longer than the rows before it. -/
  | tooManyFields (expected line found : Nat)
  /-- A quoted field is not closed; so many lines come before it. -/
  | unclosedQuote (lines : Nat)
  deriving DecidableEq

namespace DelimitedError

/-- The wording of an error. -/
def message : DelimitedError → String
  | noColumns => "No columns to parse from file"
  | tooManyFields expected line found =>
    "Error tokenizing data. C error: Expected " ++ toString expected ++ " fields in line "
      ++ toString line ++ ", saw " ++ toString found ++ "\n"
  | unclosedQuote lines =>
    "Error tokenizing data. C error: EOF inside string starting at row " ++ toString lines

end DelimitedError

namespace Delimited

/-- Where in a line the reader is. -/
inductive Mode where
  /-- Before the first character of a line. -/
  | lineStart
  /-- After a carriage return that ended a record. -/
  | afterReturn
  /-- After a carriage return that ended a blank line. -/
  | afterBlank
  /-- After blanks at the start of a line. -/
  | blanks
  /-- Before the first character of a field. -/
  | fieldStart
  /-- In a field without quotes, or after a closing mark and further text. -/
  | plain
  /-- In a quoted field. -/
  | quoted
  /-- After a quotation mark in a quoted field. -/
  | closing
  deriving DecidableEq

/-- The fields of one line, and the number of that line. -/
structure Record where
  line : Nat
  fields : List (List Char)

/-- What was read so far. -/
structure Reader where
  mode : Mode
  field : List Char
  fields : List (List Char)
  records : List Record
  lines : Nat

namespace Reader

/-- Nothing was read. -/
def initial : Reader := ⟨.lineStart, [], [], [], 0⟩

/-- Add a character to the field at hand. -/
def push (r : Reader) (mode : Mode) (c : Char) : Reader :=
  { r with mode := mode, field := r.field ++ [c] }

/-- End the field at hand. -/
def endField (r : Reader) : Reader :=
  { r with mode := .fieldStart, field := [], fields := r.fields ++ [r.field] }

/-- End the field and the line at hand. -/
def endLine (r : Reader) (mode : Mode) : Reader :=
  { mode := mode
    field := []
    fields := []
    records := r.records ++ [⟨r.lines + 1, r.fields ++ [r.field]⟩]
    lines := r.lines + 1 }

/-- Pass a blank line. -/
def skipLine (r : Reader) (mode : Mode) : Reader :=
  { r with mode := mode, field := [], lines := r.lines + 1 }

/-- Whether a character is a blank that does not separate fields. -/
def isLineBlank (delimiter c : Char) : Bool := (c == ' ' || c == '\t') && c != delimiter

/-- Take a character inside a record. -/
def inField (delimiter : Char) (r : Reader) (c : Char) : Reader :=
  match r.mode with
  | .quoted => if c = Text.quotationMark then { r with mode := .closing } else r.push .quoted c
  | mode =>
    if c = '\n' then r.endLine .lineStart
    else if c = '\r' then r.endLine .afterReturn
    else if mode = .fieldStart ∧ c = Text.quotationMark then { r with mode := .quoted }
    else if mode = .closing ∧ c = Text.quotationMark then r.push .quoted c
    else if mode = .fieldStart ∧ c = ' ' then r
    else if c = delimiter then r.endField
    else r.push .plain c

/-- Take a character at the start of a line. -/
def atLineStart (delimiter : Char) (r : Reader) (c : Char) : Reader :=
  if c = '\n' then r.skipLine .lineStart
  else if c = '\r' then r.skipLine .afterBlank
  else if isLineBlank delimiter c then r.push .blanks c
  else inField delimiter { r with mode := .fieldStart } c

/-- Whether a character shows that the blanks at the start of a line belong to a record. -/
def endsBlanks (delimiter : Char) (r : Reader) (c : Char) : Bool :=
  decide (r.mode = .blanks) && c != '\n' && c != '\r' && !isLineBlank delimiter c

/-- Take a character. After a carriage return a newline is part of the line end; after
one that ended a blank line a delimiter is dropped as well. -/
def step (delimiter : Char) (r : Reader) (c : Char) : Reader :=
  match r.mode with
  | .lineStart => r.atLineStart delimiter c
  | .afterReturn =>
    if c = '\n' then { r with mode := .lineStart }
    else if c = delimiter then r.endField
    else r.atLineStart delimiter c
  | .afterBlank =>
    if c = '\n' ∨ c = delimiter then { r with mode := .lineStart } else r.atLineStart delimiter c
  | .blanks =>
    if c = '\n' then r.skipLine .lineStart
    else if c = '\r' then r.skipLine .afterBlank
    else if isLineBlank delimiter c then r.push .blanks c
    else
      let field := r.field.dropWhile (· == ' ')
      let mode := if field.isEmpty then Mode.fieldStart else Mode.plain
      inField delimiter { r with mode := mode, field := field } c
  | _ => inField delimiter r c

/-- Read the header and the first row. A record that begins with blanks is read again
from the last newline or from the start of the text; where lines end in carriage returns,
records before it come again. Gives the text that is left as well. -/
def readHead (delimiter : Char) (start : List Char) :
    Nat → Reader → List Char → Reader × List Char
  | 0, r, rest => (r, rest)
  | _, r, [] => (r, [])
  | fuel + 1, r, c :: cs =>
    if 2 ≤ r.records.length then (r, c :: cs)
    else if r.endsBlanks delimiter c then
      readHead delimiter start fuel { r with mode := .fieldStart, field := [] } start
    else readHead delimiter (if c = '\n' then cs else start) fuel (r.step delimiter c) cs

/-- The records of a text that ends here. -/
def finish (r : Reader) : List Record :=
  match r.mode with
  | .fieldStart | .plain | .closing => (r.endLine .lineStart).records
  | _ => r.records

end Reader

/-- Read a text up to its end. A byte order mark at the start is dropped. -/
def read (delimiter : Char) (text : List Char) : Reader :=
  let text := match text with
    | '\ufeff' :: cs => cs
    | cs => cs
  let (r, rest) := Reader.readHead delimiter text (4 * text.length + 4) .initial text
  rest.foldl (Reader.step delimiter) r

/-- A field up to the first null character. -/
def upToNull (field : List Char) : List Char := field.takeWhile (· != '\x00')

/-! ### Column names -/

/-- The name of the column at a position: an empty name is replaced. -/
def givenName (i : Nat) (name : String) : String :=
  if name = "" then "Unnamed: " ++ toString i else name

/-- How often a name was used. -/
def uses (counts : List (String × Nat)) (name : String) : Nat :=
  (List.lookup name counts).getD 0

/-- The first number from `n` on that makes a name new, if one of the first so
many does. -/
def freeSuffix (names : List String) (name : String) : Nat → Nat → Nat
  | 0, n => n
  | fuel + 1, n =>
    if names.contains (name ++ "." ++ toString n) then freeSuffix names name fuel (n + 1) else n

/-- Number the name at a position if it was used before. The uses of names are
counted along. -/
def numberName (state : List String × List (String × Nat)) (i : Nat) :
    List String × List (String × Nat) :=
  let (names, counts) := state
  let name := names.getD i ""
  match uses counts name with
  | 0 => (names, (name, 1) :: counts)
  | n =>
    let k := freeSuffix names name (names.length + 1) n
    let fresh := name ++ "." ++ toString k
    (names.set i fresh, (fresh, 1) :: (name, k + 1) :: counts)

/-- Number repeated names, going through their positions in the given order. -/
def distinctNames (names : List String) (order : List Nat) : List String :=
  (order.foldl numberName (names, [])).1

/-- The column names of a header. Names that were given keep precedence over
names that replace an empty one. -/
def columnNames (fields : List (List Char)) : List String :=
  let given := fields.map String.ofList
  let names := given.zipIdx.map fun p => givenName p.2 p.1
  let positions := List.range given.length
  distinctNames names
    (positions.filter (fun i => given.getD i "" != "")
      ++ positions.filter (fun i => given.getD i "" == ""))

theorem length_numberName (state : List String × List (String × Nat)) (i : Nat) :
    (numberName state i).1.length = state.1.length := by
  obtain ⟨names, counts⟩ := state
  simp only [numberName]
  split <;> simp

theorem length_distinctNames (names : List String) (order : List Nat) :
    (distinctNames names order).length = names.length := by
  suffices h : ∀ state : List String × List (String × Nat),
      (order.foldl numberName state).1.length = state.1.length from h (names, [])
  induction order with
  | nil => simp
  | cons i order ih => intro state; simp [ih, length_numberName]

theorem length_columnNames (fields : List (List Char)) :
    (columnNames fields).length = fields.length := by
  simp [columnNames, length_distinctNames]

/-! ### Relations -/

/-- The rows of a table with the given columns, as a relation stores them. -/
def transpose (count : Nat) (columns : List (List Value)) : List Row :=
  (List.range count).map fun i => columns.map fun column => (column.getD i .null).stored

/-- The cells of the column at a position; a short row has an empty one. -/
def columnCells (rows : List (List (List Char))) (i : Nat) : List (List Char) :=
  rows.map fun fields => upToNull (fields.getD i [])

/-- The relation with the given header and rows, of which so many fields in front
belong to no column. -/
def relation (name : String) (header : List (List Char)) (labels : Nat)
    (rows : List (List (List Char))) : Relation :=
  let columns := (List.range header.length).map fun i =>
    CellText.readColumn (columnCells rows (labels + i))
  { name := some name
    storage := .byColumn
    columns := columnNames (header.map upToNull)
    rows := transpose rows.length columns
    width_eq := by
      intro r hr
      obtain ⟨i, -, rfl⟩ := List.mem_map.mp hr
      simp [columns, length_columnNames]
    definite := by
      intro r hr v hv
      obtain ⟨i, -, rfl⟩ := List.mem_map.mp hr
      obtain ⟨column, -, rfl⟩ := List.mem_map.mp hv
      exact Value.isNotANumber_stored _ }

end Delimited

namespace Relation

/-- The relation that a delimited text holds. -/
def ofDelimited? (name : String) (delimiter : Char) (text : String) :
    Except DelimitedError Relation :=
  let reader := Delimited.read delimiter text.toList
  match reader.finish with
  | [] =>
    if reader.mode = .quoted then .error (.unclosedQuote reader.lines) else .error .noColumns
  | header :: rows =>
    let labels := ((rows.head?.map fun r => r.fields.length).getD 0) - header.fields.length
    let width := labels + header.fields.length
    match rows.find? fun r => decide (width < r.fields.length) with
    | some r => .error (.tooManyFields width r.line r.fields.length)
    | none =>
      if reader.mode = .quoted then .error (.unclosedQuote reader.lines)
      else .ok (Delimited.relation name header.fields labels (rows.map Delimited.Record.fields))

end Relation

end Conjunctive
