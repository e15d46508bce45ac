/-!
# Binary floating point numbers as exact numbers

A binary64 number is a signed significand times a power of two, an infinity,
or no number at all. `Binary64.parts` reads the three cases off the bit
pattern, and `Binary64.Parts.rat?` gives the finite case its exact value, so
that comparisons and decimal texts can be settled in rational arithmetic.
-/

namespace Conjunctive

namespace Binary64

/-- What a binary64 number stands for: `±significand * 2 ^ exponent`, an
infinity, or nothing. -/
inductive Parts where
  | finite (negative : Bool) (significand : Nat) (exponent : Int)
  | infinite (negative : Bool)
  | notANumber
  deriving DecidableEq

/-- Split the bit pattern into its sign, exponent and fraction fields. The
exponent field 0 marks the numbers without a hidden leading bit, the field
2047 the infinities and the non-numbers. -/
def parts (x : Float) : Parts :=
  let bits := x.toBits.toNat
  let negative := decide (Nat.pow 2 63 ≤ bits)
  let field : Nat := bits / Nat.pow 2 52 % Nat.pow 2 11
  let fraction := bits % Nat.pow 2 52
  if field = 2047 then
    if fraction = 0 then .infinite negative else .notANumber
  else if field = 0 then .finite negative fraction (-1074)
  else .finite negative (Nat.pow 2 52 + fraction) ((field : Int) - 1075)

/-- The exact value of a finite number. -/
def Parts.rat? : Parts → Option Rat
  | .finite negative significand exponent =>
    let magnitude := (significand : Rat) * 2 ^ exponent
    some (if negative then -magnitude else magnitude)
  | _ => none

end Binary64

end Conjunctive
