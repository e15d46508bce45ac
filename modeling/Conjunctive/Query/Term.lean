import Conjunctive.Value.Kind
import Conjunctive.Value.Text

/-!
# Terms of a query

A term is a variable or a constant, and a constant is an integer, a float or a
text. Equality of terms follows what they denote: `1` and `1.0` are one
constant, the text `1` is another, and a variable never equals a constant.
-/

namespace Conjunctive

/-- A constant of a query. -/
inductive Constant where
  | int (n : Int)
  | float (x : Float)
  | text (s : String)
  deriving DecidableEq, Inhabited

namespace Constant

/-- The cell value that a constant stands for. -/
def value : Constant → Value
  | int n => .int n
  | float x => .float x
  | text s => .text s

/-- The constant that stands for a value, or the kind of the value if there is none. -/
def ofValue? : Value → Except String Constant
  | .int n => .ok (.int n)
  | .float x _ => .ok (.float x)
  | .text s => .ok (.text s)
  | v => .error v.kind

/-- A constant as it is written in a query: a text stands between apostrophes,
as it is. -/
def display : Constant → String
  | text s => "'" ++ s ++ "'"
  | c => c.value.display

/-- Whether two constants are equal. What is not a number equals nothing. -/
def same (c d : Constant) : Bool := c.value.equals d.value

end Constant

/-- A variable or a constant. -/
inductive Term where
  | variable (name : String)
  | constant (c : Constant)
  deriving DecidableEq, Inhabited

namespace Term

/-- The name of a variable, or the text of a constant without quotes. -/
def name : Term → String
  | .variable n => n
  | .constant c => c.value.display

/-- A term as it is written in a query. -/
def display : Term → String
  | .variable n => n
  | .constant c => c.display

def asVariable : Term → Option String
  | .variable n => some n
  | .constant _ => none

def isVariable (t : Term) : Bool := t.asVariable.isSome

/-- Whether two terms are equal. -/
def same : Term → Term → Bool
  | .variable m, .variable n => m == n
  | .constant c, .constant d => c.same d
  | _, _ => false

/-- The number of different terms in a list. -/
def countDistinct : List Term → Nat
  | [] => 0
  | t :: ts => countDistinct ts + if ts.any t.same then 0 else 1

end Term

end Conjunctive
