import Conjunctive.Text.Split
import Conjunctive.Yaml.Error

/-!
# Numbers in YAML texts

A scalar of a kind of numbers may have low lines anywhere and a sign in front. An integer
may be to the base two, eight, ten or sixteen, and both integers and floats may be given in
parts to the base sixty. The digits are read loosely.
-/

namespace Conjunctive

namespace Yaml

/-- A scalar without low lines, as its sign and what follows it. -/
def unsigned? (s : String) : Except ReadError (Bool × String) :=
  match s.toList.filter (· != '_') with
  | [] => .error .emptyNumber
  | cs => let (negative, body) := Literal.splitSign cs; .ok (negative, String.ofList body)

/-- An integer in loose notation. -/
def looseInt? (base : Nat) (s : String) : Except ReadError Int :=
  (Loose.int? base s).mapError .number

/-- A float in loose notation. -/
def looseFloat? (s : String) : Except ReadError Float := (Loose.float? s).mapError .number

/-- The parts of a text between colons. -/
def colonParts (s : String) : List String := (Text.splitAt ':' s.toList).map String.ofList

/-- The integer that a scalar is. -/
def int? (s : String) : Except ReadError Int := do
  let (negative, body) ← unsigned? s
  let n ← match body.toList with
    | [] => .error .emptyNumber
    | ['0'] => .ok 0
    | '0' :: 'b' :: ds => looseInt? 2 (String.ofList ds)
    | '0' :: 'x' :: ds => looseInt? 16 (String.ofList ds)
    | '0' :: _ => looseInt? 8 body
    | cs =>
      if cs.contains ':' then do
        let parts ← (colonParts body).mapM (looseInt? 10)
        pure (parts.foldl (fun n d => 60 * n + d) 0)
      else looseInt? 10 body
  pure (if negative then -n else n)

/-- The sum of the parts of a float to the base sixty, the last part first. -/
def sumBySixty (base : Nat) (sum : Float) : List Float → Float
  | [] => sum
  | x :: xs => sumBySixty (60 * base) (sum + x * Literal.ofInt base) xs

/-- The float that a scalar is. -/
def float? (s : String) : Except ReadError Float := do
  let (negative, body) ← unsigned? (String.ofList (s.toList.map Char.toLower))
  let signed (x : Float) : Float := if negative then -x else x
  if body = ".inf" then pure (signed (1.0 / 0.0))
  else if body = ".nan" then pure (0.0 / 0.0)
  else if body.toList.contains ':' then do
    let parts ← (colonParts body).mapM looseFloat?
    pure (signed (sumBySixty 1 0 parts.reverse))
  else do
    pure (signed (← looseFloat? body))

end Yaml

end Conjunctive
