import Conjunctive.Number.Literal
import Conjunctive.Text.Decimal
import Conjunctive.Text.Quoted

/-!
# Numbers in loose notation

A number may stand between blanks, and its digits may be those of any script. An integer
to a base of two, eight or sixteen may name its base in front. To the base ten, an integer
has no more than 4300 digits. The words for infinity and for no number are floats too.
-/

namespace Conjunctive

/-- Why a text is no number. -/
inductive NumberError where
  | notInteger (base : Nat) (text : String)
  | tooManyDigits (found : Nat)
  | notFloat (text : String)
  deriving DecidableEq

namespace NumberError

/-- How much of a text that is no integer is shown. -/
def shownLength : Nat := 200

/-- The wording of an error. -/
def message : NumberError → String
  | notInteger base text =>
    "invalid literal for int() with base " ++ toString base ++ ": "
      ++ String.ofList ((Text.quoted text).toList.take shownLength)
  | tooManyDigits found => Literal.overlongMessage found
  | notFloat text => "could not convert string to float: " ++ Text.quoted text

end NumberError

namespace Loose

/-- The blanks of ASCII that may surround a number. -/
def isBlank (c : Char) : Bool := c == ' ' || (decide (9 ≤ c.toNat) && decide (c.toNat ≤ 13))

/-- A text in ASCII, without the blanks around it. -/
def trim (cs : List Char) : List Char :=
  (((cs.map Text.ascii).dropWhile isBlank).reverse.dropWhile isBlank).reverse

/-- The value of a digit, where letters go on after nine. -/
def digit? (base : Nat) (c : Char) : Option Nat :=
  let value :=
    if c.isDigit then some (c.toNat - '0'.toNat)
    else if c.isLower then some (c.toNat - 'a'.toNat + 10)
    else if c.isUpper then some (c.toNat - 'A'.toNat + 10)
    else none
  value.filter (· < base)

/-- The letter that names a base. -/
def baseLetter? (base : Nat) : Option Char :=
  List.lookup base [(2, 'b'), (8, 'o'), (16, 'x')]

/-- Digits without the name of their base in front. -/
def afterBase (base : Nat) : List Char → List Char
  | '0' :: c :: cs => if baseLetter? base = some c.toLower then cs else '0' :: c :: cs
  | cs => cs

/-- The number that digits to a base denote. -/
def natural (base : Nat) (digits : List Char) : Nat :=
  digits.foldl (fun n c => base * n + (digit? base c).getD 0) 0

/-- The integer to a base that a text is. -/
def int? (base : Nat) (s : String) : Except NumberError Int :=
  let (negative, body) := Literal.splitSign (trim s.toList)
  let body := afterBase base body
  let isDigit (c : Char) := (digit? base c).isSome
  let digits := body.takeWhile isDigit
  if base = 10 ∧ Literal.digitLimit < digits.length then
    .error (.tooManyDigits digits.length)
  else if digits.isEmpty || digits.length < body.length then .error (.notInteger base s)
  else .ok (Literal.signed negative (natural base digits))

/-- The float that a word with an optional sign names, in small letters. -/
def word? (cs : List Char) : Option Float :=
  let (negative, body) := Literal.splitSign cs
  match String.ofList body with
  | "inf" | "infinity" => some (if negative then -1.0 / 0.0 else 1.0 / 0.0)
  | "nan" => some (0.0 / 0.0)
  | _ => none

/-- The float that a text is. -/
def float? (s : String) : Except NumberError Float :=
  let cs := trim s.toList
  match (Literal.float? cs).or (word? (cs.map Char.toLower)) with
  | some x => .ok x
  | none => .error (.notFloat s)

end Loose

end Conjunctive
