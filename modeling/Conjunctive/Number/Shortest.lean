import Conjunctive.Number.Binary64

/-!
# The shortest decimal that reads back

Between a binary64 number and its neighbours lies an interval of rationals
that round to it. `shortest` looks for the least number of decimal digits for
which that interval holds a decimal, testing on each decimal grid the two grid
points around the number itself. If a grid has a point in the interval then
one of these two is such a point, so the first grid with a hit is the least.
-/

namespace Conjunctive

/-- The decimal `digits * 10 ^ exponent`. -/
structure Decimal where
  digits : Nat
  exponent : Int
  deriving DecidableEq

namespace Decimal

/-- The value of a decimal. -/
def toRat (d : Decimal) : Rat := (d.digits : Rat) * 10 ^ d.exponent

end Decimal

namespace Binary64

/-- The rationals that round to one binary64 number. The ends belong to it
exactly when the significand is even, since ties go to the even neighbour. -/
structure Interval where
  low : Rat
  high : Rat
  closed : Bool

namespace Interval

/-- Whether a rational lies in the interval. -/
def contains (i : Interval) (q : Rat) : Bool :=
  if i.closed then decide (i.low ≤ q) && decide (q ≤ i.high)
  else decide (i.low < q) && decide (q < i.high)

/-- The interval around `significand * 2 ^ exponent`. Below a power of two the
neighbours are half as far apart, except at the bottom of the range. -/
def around (significand : Nat) (exponent : Int) : Interval :=
  let below : Rat :=
    if significand = Nat.pow 2 52 ∧ -1074 < exponent then mkRat 1 4 else mkRat 1 2
  { low := ((significand : Rat) - below) * 2 ^ exponent
    high := ((significand : Rat) + mkRat 1 2) * 2 ^ exponent
    closed := significand % 2 == 0 }

end Interval

/-- The number of decimal digits of a natural number. -/
def digitCount (n : Nat) : Nat := (Nat.toDigits 10 n).length

/-- The exponent of the leading decimal digit of a positive rational. -/
def leadingExponent (v : Rat) : Int :=
  let guess : Int := (digitCount v.num.natAbs : Int) - digitCount v.den
  if (10 : Rat) ^ guess ≤ v then guess else guess - 1

/-- The decimal `k * 10 ^ exponent`, where `k` has at most `count` digits or is
the next power of ten, which has a single digit. -/
def gridPoint (count k : Nat) (exponent : Int) : Decimal :=
  if k = Nat.pow 10 count then ⟨1, exponent + count⟩ else ⟨k, exponent⟩

/-- The decimal with `count` digits that lies in the interval next to `v`, if
there is one. Of two the nearer is taken, and of two equally near the one with
an even last digit. -/
def candidate? (i : Interval) (v : Rat) (count : Nat) : Option Decimal :=
  let exponent := leadingExponent v - count + 1
  let scaled := v / 10 ^ exponent
  let down := gridPoint count scaled.floor.toNat exponent
  let up := gridPoint count (scaled.floor.toNat + 1) exponent
  match i.contains down.toRat, i.contains up.toRat with
  | false, false => none
  | true, false => some down
  | false, true => some up
  | true, true =>
    let toDown := v - down.toRat
    let toUp := up.toRat - v
    if toDown < toUp then some down
    else if toUp < toDown then some up
    else if down.digits % 2 = 0 then some down else some up

/-- The decimal with the fewest digits that rounds to
`significand * 2 ^ exponent`. Seventeen digits always suffice. -/
def shortest (significand : Nat) (exponent : Int) : Decimal :=
  if significand = 0 then ⟨0, 0⟩
  else
    let v := (significand : Rat) * 2 ^ exponent
    let i := Interval.around significand exponent
    ((List.range 17).findSome? fun n => candidate? i v (n + 1)).getD ⟨significand, 0⟩

end Binary64

end Conjunctive
