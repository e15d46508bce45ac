import Conjunctive.Query.Term
import Conjunctive.Query.Token
import Conjunctive.Number.Literal

/-!
# Terms spelled by tokens

A variable token is a variable, a number token an integer or, if it has a
point, a float, and a string token the text that its body encodes. In a body, a
backslash before the string's own quote sign stands for that sign; what is left
then has each pair of backslashes turned into one. Any other backslash stays.
-/

namespace Conjunctive

namespace Token

/-- Turn each pair of a backslash and the given character into the character
alone, from left to right. -/
def collapse (c : Char) : List Char → List Char
  | [] => []
  | [d] => [d]
  | d :: e :: cs =>
    if d = '\\' ∧ e = c then c :: collapse c cs
    else d :: collapse c (e :: cs)

/-- The text that the body of a string encodes. -/
def decode (quote : Char) (body : List Char) : String :=
  String.ofList (collapse '\\' (collapse quote body))

def numberConstant (digits : List Char) : Constant :=
  if digits.contains '.' then .float ((Literal.float? digits).getD 0)
  else .int ((Literal.int? digits).getD 0)

/-- The term that a token spells, if it spells one. -/
def term? : Token → Option Term
  | .variable name => some (.variable (String.ofList name))
  | .number digits => some (.constant (numberConstant digits))
  | .string quote body => some (.constant (.text (decode quote body)))
  | _ => none

/-- The number of digits of an integer that has too many. -/
def overlong? : Token → Option Nat
  | .number digits =>
    let count := (digits.filter Char.isDigit).length
    if digits.contains '.' || decide (count ≤ Literal.digitLimit) then none else some count
  | _ => none

end Token

end Conjunctive
