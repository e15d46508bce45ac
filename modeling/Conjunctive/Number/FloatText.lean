import Conjunctive.Number.Shortest

/-!
# Decimal texts of floating point numbers

A float is written with the fewest digits that read back. A `FloatStyle` holds
what a format is free to choose: how infinities and non-numbers are spelled,
and whether a single digit before an exponent carries a decimal point. Where
positional notation ends and how exponents are padded is the same for all the
formats of this library.
-/

namespace Conjunctive

/-- The choices of a format for floats. -/
structure FloatStyle where
  /-- The text of positive infinity. -/
  infinity : String
  /-- The text of what is not a number. -/
  notANumber : String
  /-- Whether `1e+16` is written `1.0e+16`. -/
  pointBeforeExponent : Bool

namespace FloatStyle

/-- Cells and constants write `inf`, `nan` and `1e+16`. -/
def cell : FloatStyle := ⟨"inf", "nan", false⟩

/-- Settings write `.inf`, `.nan` and `1.0e+16`, so that a reader which takes
only texts with a point for floats reads them back. -/
def setting : FloatStyle := ⟨".inf", ".nan", true⟩

/-- Digits with a point, for a number whose leading digit has the given
exponent. A whole number ends in `.0`. -/
def positional (digits : List Char) (leading : Int) : String :=
  if leading < 0 then
    "0." ++ String.ofList (List.replicate (leading.natAbs - 1) '0' ++ digits)
  else
    let whole := leading.toNat + 1
    if digits.length ≤ whole then
      String.ofList (digits ++ List.replicate (whole - digits.length) '0') ++ ".0"
    else
      String.ofList (digits.take whole) ++ "." ++ String.ofList (digits.drop whole)

/-- An exponent with its sign and at least two digits. -/
def exponentText (e : Int) : String :=
  let digits := toString e.natAbs
  (if e < 0 then "-" else "+") ++ (if digits.length < 2 then "0" ++ digits else digits)

/-- One digit, a point, the other digits and the exponent. -/
def scientific (style : FloatStyle) (digits : List Char) (leading : Int) : String :=
  let mantissa :=
    match digits with
    | [] => ""
    | [d] => String.ofList [d] ++ (if style.pointBeforeExponent then ".0" else "")
    | d :: ds => String.ofList [d] ++ "." ++ String.ofList ds
  mantissa ++ "e" ++ exponentText leading

/-- The text of a finite magnitude. Positional notation covers the leading
exponents -4 to 15. -/
def magnitude (style : FloatStyle) (significand : Nat) (exponent : Int) : String :=
  let d := Binary64.shortest significand exponent
  let digits := Nat.toDigits 10 d.digits
  let leading : Int := d.exponent + digits.length - 1
  if -4 ≤ leading ∧ leading < 16 then positional digits leading
  else style.scientific digits leading

/-- The text of a float. The sign of zero is written. -/
def write (style : FloatStyle) (x : Float) : String :=
  match Binary64.parts x with
  | .notANumber => style.notANumber
  | .infinite negative => (if negative then "-" else "") ++ style.infinity
  | .finite negative significand exponent =>
    (if negative then "-" else "") ++ style.magnitude significand exponent

end FloatStyle

end Conjunctive
