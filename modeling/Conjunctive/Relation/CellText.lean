import Conjunctive.Number.Literal
import Conjunctive.Relation.ColumnType

/-!
# Cells from text

A column of texts is read as one type. Its cells are taken in order, and missing
cells do not count.

* If all of them are integers of 64 bits with a sign, the column holds integers.
* If the first cell that is not is too large, the column is read without signs:
  `unsignedColumn` tells whether all cells fit, whether one is no integer, or whether one
  is too large or negative, so that the column holds integers of any size. Integers
  of any size are kept as texts, in plain decimal digits.
* If the first cell that is not is no integer, the column holds floats or truth values
  if all cells are such.
* Otherwise each cell stays the text it is.

A large integer beside a missing or negative cell, and an integer of any size beside
something else, make every cell a text, also those that would be missing.
-/

namespace Conjunctive

namespace CellText

/-- The texts that stand for a missing cell. -/
def missingWords : List String :=
  ["", "#N/A", "#N/A N/A", "#NA", "-1.#IND", "-1.#QNAN", "-NaN", "-nan", "1.#IND",
    "1.#QNAN", "<NA>", "N/A", "NA", "NULL", "NaN", "None", "n/a", "nan", "null"]

/-- Whether a text stands for a missing cell. -/
def isMissing (cs : List Char) : Bool := missingWords.contains (String.ofList cs)

/-- The blanks that may surround a number. -/
def isBlank (c : Char) : Bool := c == ' ' || (decide (9 ≤ c.toNat) && decide (c.toNat ≤ 13))

/-- A text without surrounding blanks. -/
def trim (cs : List Char) : List Char :=
  ((cs.dropWhile isBlank).reverse.dropWhile isBlank).reverse

/-! ### Integers of 64 bits -/

/-- What a text is as an integer of limited size. -/
inductive Sized where
  | fits (n : Int)
  | tooLarge
  | notInteger

/-- Read an integer that has to pass a test. -/
def sized (fits : Int → Bool) (cs : List Char) : Sized :=
  let (negative, body) := Literal.splitSign (cs.dropWhile isBlank)
  let digits := body.takeWhile Char.isDigit
  let n := Literal.signed negative (Literal.natural digits)
  if digits = [] ∨ !(body.dropWhile Char.isDigit).all isBlank then .notInteger
  else if fits n then .fits n
  else .tooLarge

/-- The integers that a column without missing cells is, or the first cell's fault. -/
def signedColumn : List (List Char) → Except Sized (List Int)
  | [] => .ok []
  | cs :: rest =>
    match sized ColumnType.isSigned64 cs with
    | .fits n => (signedColumn rest).map (n :: ·)
    | fault => .error fault

/-! ### Integers of 64 bits without a sign -/

/-- What is known of a column that is read without signs. -/
structure Unsigned where
  /-- Some integer needs all 64 bits. -/
  large : Bool
  /-- Some cell begins with a minus sign; what follows it is not looked at. -/
  negative : Bool
  missing : Bool

/-- What a column of integers turns out to be. -/
inductive Whole where
  | words (ns : List Int)
  /-- A large integer stands beside a missing or negative cell. -/
  | mixed
  /-- An integer is too large or negative. -/
  | unlimited
  | notIntegers

/-- Read a column without signs; the integers read so far are given in reverse. -/
def unsignedColumn (seen : Unsigned) (ns : List Int) : List (List Char) → Whole
  | [] =>
    if seen.large && (seen.negative || seen.missing) then .mixed
    else if seen.negative then .unlimited
    else .words ns.reverse
  | cs :: rest =>
    if isMissing cs then unsignedColumn { seen with missing := true } ns rest
    else if (cs.dropWhile isBlank).head? = some '-' then
      unsignedColumn { seen with negative := true } ns rest
    else
      match sized ColumnType.isUnsigned64 cs with
      | .fits n =>
        let large := seen.large || !ColumnType.isSigned64 n
        unsignedColumn { seen with large := large } (n :: ns) rest
      | .tooLarge => .unlimited
      | .notInteger => .notIntegers

/-! ### Integers of any size -/

/-- Digits with single low lines between them, without these. The flag says whether a
digit comes before. -/
def unpacked? (afterDigit : Bool) : List Char → Option (List Char)
  | [] => if afterDigit then some [] else none
  | c :: cs =>
    if c = '_' then if afterDigit then unpacked? false cs else none
    else if c.isDigit then (unpacked? true cs).map (c :: ·)
    else none

/-- The integer of any size that a text is. It has no more
digits than any integer may have. -/
def unlimited? (cs : List Char) : Option Int := do
  let (negative, body) := Literal.splitSign (trim cs)
  let digits ← unpacked? false body
  if Literal.digitLimit < digits.length then none
  else some (Literal.signed negative (Literal.natural digits))

/-! ### Floats and truth values -/

/-- The infinity that a word names, in any mixture of capitals and small
letters. -/
def infinity? (cs : List Char) : Option Float :=
  match String.ofList (cs.map Char.toLower) with
  | "inf" | "+inf" | "infinity" | "+infinity" => some (1.0 / 0.0)
  | "-inf" | "-infinity" => some (-1.0 / 0.0)
  | _ => none

/-- The float that a text is. -/
def float? (cs : List Char) : Option Float :=
  match Literal.float? (trim cs) with
  | some x => some x
  | none => infinity? cs

/-- The truth value that a word names, in any mixture of capitals and small letters. -/
def bool? (cs : List Char) : Option Bool :=
  match String.ofList (cs.map Char.toLower) with
  | "true" => some true
  | "false" => some false
  | _ => none

/-! ### Columns -/

/-- A cell as the text it is. -/
def verbatim (cs : List Char) : Value := .text (String.ofList cs)

/-- Read a cell unless it is missing. -/
def readWith (read : List Char → Value) (cs : List Char) : Value :=
  if isMissing cs then .null else read cs

/-- An integer of a signed column. Beside missing cells, the least integer is the mark
of a missing cell itself. -/
def signedCell (missing : Bool) (cs : List Char) : Value :=
  match sized ColumnType.isSigned64 cs with
  | .fits n => if missing && n == -Int.pow 2 63 then .null else .int n
  | _ => verbatim cs

/-- An integer of a column without signs. -/
def unsignedCell (cs : List Char) : Value :=
  match sized ColumnType.isUnsigned64 cs with
  | .fits n => .int n
  | _ => verbatim cs

/-- How the cells of a column with some cell that is no integer are read. -/
def readOther (present : List (List Char)) : List Char → Value :=
  readWith <|
    if present.all fun cs => (float? cs).isSome then fun cs => .float ((float? cs).getD 0)
    else if present.all fun cs => (bool? cs).isSome then fun cs => .bool ((bool? cs).getD false)
    else verbatim

/-- How the cells of a column with integers of any size are read. -/
def readUnlimited (present : List (List Char)) : List Char → Value :=
  if present.all fun cs => (unlimited? cs).isSome then
    readWith fun cs => .text (toString ((unlimited? cs).getD 0))
  else verbatim

/-- How the cells of a column are read. -/
def reader (cells : List (List Char)) : List Char → Value :=
  let present := cells.filter fun cs => !isMissing cs
  match signedColumn present with
  | .ok _ => readWith (signedCell (decide (present.length < cells.length)))
  | .error .tooLarge =>
    match unsignedColumn ⟨false, false, false⟩ [] cells with
    | .words _ => unsignedCell
    | .mixed => verbatim
    | .unlimited => readUnlimited present
    | .notIntegers => readOther present
  | .error _ => readOther present

/-- Read a column of texts. -/
def readColumn (cells : List (List Char)) : List Value := cells.map (reader cells)

theorem length_readColumn (cells : List (List Char)) :
    (readColumn cells).length = cells.length := by
  simp [readColumn]

end CellText

end Conjunctive
