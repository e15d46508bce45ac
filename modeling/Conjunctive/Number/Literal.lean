/-!
# Reading numbers

Decimal digits are read in exact arithmetic, and a float is rounded once, at
the end. `Literal.float?` reads an optional sign, digits with an optional
point, and an optional exponent; `Literal.int?` an optional sign and digits.
Only the ASCII digits count as digits here.
-/

namespace Conjunctive

namespace Literal

/-- The most digits that an integer may have. -/
def digitLimit : Nat := 4300

/-- The wording for an integer of too many digits. -/
def overlongMessage (digits : Nat) : String :=
  "Exceeds the limit (" ++ toString digitLimit ++ " digits) for integer string conversion: "
    ++ "value has " ++ toString digits ++ " digits; use sys.set_int_max_str_digits() to "
    ++ "increase the limit"

/-- Whether an integer has more digits than any may have. -/
def isOverlong (n : Int) : Bool := decide (Nat.pow 10 digitLimit ≤ n.natAbs)

/-- The wording for an integer of too many digits that is to be written. -/
def unwritableMessage : String :=
  "Exceeds the limit (" ++ toString digitLimit ++ " digits) for integer string conversion; "
    ++ "use sys.set_int_max_str_digits() to increase the limit"

/-- The value of a run of decimal digits. -/
def natural (digits : List Char) : Nat :=
  digits.foldl (fun n c => 10 * n + (c.toNat - '0'.toNat)) 0

/-- Split off an optional sign; the flag says whether it was a minus. -/
def splitSign : List Char → Bool × List Char
  | '-' :: cs => (true, cs)
  | '+' :: cs => (false, cs)
  | cs => (false, cs)

/-- Apply a sign. -/
def signed (negative : Bool) (n : Nat) : Int := if negative then -(n : Int) else n

/-- An integer: an optional sign and at least one digit. -/
def int? (cs : List Char) : Option Int :=
  let (negative, digits) := splitSign cs
  if digits ≠ [] ∧ digits.all Char.isDigit then some (signed negative (natural digits))
  else none

/-- The float nearest to `±significand * 10 ^ exponent`, a tie going to the
even neighbour. Beyond the range the exponent cannot matter, so it is cut there
and no huge power of ten is ever formed. -/
def scaled (negative : Bool) (significand : Nat) (exponent : Int) : Float :=
  let size : Int := (Nat.toDigits 10 significand).length + exponent
  let magnitude : Float :=
    if significand = 0 ∨ size < -400 then 0
    else if 400 < size then 1.0 / 0.0
    else Float.ofScientific significand (decide (exponent < 0)) exponent.natAbs
  if negative then -magnitude else magnitude

/-- The integer `n` as a float. -/
def ofInt (n : Int) : Float := scaled (decide (n < 0)) n.natAbs 0

/-- Digits, an optional point and further digits; at least one digit in all.
Gives the digits, how many of them follow the point, and the rest. -/
def mantissa? (cs : List Char) : Option (List Char × Nat × List Char) :=
  let whole := cs.takeWhile Char.isDigit
  let (fraction, rest) :=
    match cs.dropWhile Char.isDigit with
    | '.' :: ds => (ds.takeWhile Char.isDigit, ds.dropWhile Char.isDigit)
    | ds => ([], ds)
  if whole ++ fraction = [] then none else some (whole ++ fraction, fraction.length, rest)

/-- The exponent after a mantissa: nothing, or `e` and an integer. -/
def exponent? : List Char → Option Int
  | [] => some 0
  | c :: cs => if c = 'e' ∨ c = 'E' then int? cs else none

/-- A decimal number with an optional point and an optional exponent. -/
def float? (cs : List Char) : Option Float := do
  let (negative, body) := splitSign cs
  let (digits, places, rest) ← mantissa? body
  let exponent ← exponent? rest
  pure (scaled negative (natural digits) (exponent - places))

end Literal

end Conjunctive
