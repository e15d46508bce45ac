import Conjunctive.Number.Literal
import Conjunctive.Text.Split
import Conjunctive.Yaml.Kind
import Conjunctive.Yaml.Quoted

/-!
# What a plain scalar looks like

A scalar without quotes and without a tag is of the kind that it looks like: nothing, a
truth value, an integer or a float, each in several notations, a time, or one of two signs
with a meaning of their own. Anything else is a text. A number needs a point to be a float,
and its digits may be set apart by low lines.
-/

namespace Conjunctive

namespace Yaml

/-- Whether a character is a digit or sets digits apart. -/
def isSpaced (isDigit : Char → Bool) (c : Char) : Bool := isDigit c || c == '_'

/-- Whether a character is a digit to a base of at most ten. -/
def isDigitTo (base : Nat) (c : Char) : Bool := c.isDigit && c.toNat < '0'.toNat + base

/-- Whether a part of a number to the base sixty is less than sixty, in one digit or two. -/
def isSixtieth : List Char → Bool
  | [d] => d.isDigit
  | [c, d] => isDigitTo 6 c && d.isDigit
  | _ => false

/-- Whether a scalar without a sign looks like an integer. -/
def isNatural (cs : List Char) : Bool :=
  match cs with
  | '0' :: 'b' :: ds => !ds.isEmpty && ds.all (isSpaced (isDigitTo 2))
  | '0' :: 'x' :: ds => !ds.isEmpty && ds.all (isSpaced fun c => (hexValue? c).isSome)
  | '0' :: ds => ds.all (isSpaced (isDigitTo 8))
  | c :: _ =>
    c.isDigit &&
      match Text.splitAt ':' cs with
      | first :: others => first.all (isSpaced Char.isDigit) && others.all isSixtieth
      | [] => false
  | [] => false

/-- Whether a scalar looks like an integer. -/
def isInt (cs : List Char) : Bool := isNatural (Literal.splitSign cs).2

/-- Whether the rest of a float is nothing or an exponent with its sign. -/
def isExponent : List Char → Bool
  | [] => true
  | e :: s :: ds =>
    (e == 'e' || e == 'E') && (s == '+' || s == '-') && !ds.isEmpty && ds.all Char.isDigit
  | _ => false

/-- Whether digits, set apart or not, start with a digit. -/
def isCount (cs : List Char) : Bool :=
  cs.head?.any Char.isDigit && cs.all (isSpaced Char.isDigit)

/-- Whether a scalar without its sign is a float with a point. -/
def isPointed (signed : Bool) (cs : List Char) : Bool :=
  let whole := cs.takeWhile (isSpaced Char.isDigit)
  match cs.dropWhile (isSpaced Char.isDigit) with
  | '.' :: ds =>
    let isFraction := isExponent (ds.dropWhile (isSpaced Char.isDigit))
    if whole.isEmpty then !signed && ds.head?.any Char.isDigit && isFraction
    else isCount whole && isFraction
  | _ => false

/-- Whether the last of some parts to the base sixty has a point. -/
def isPointedSixtieth (cs : List Char) : Bool :=
  match cs.dropWhile Char.isDigit with
  | '.' :: ds => isSixtieth (cs.takeWhile Char.isDigit) && ds.all (isSpaced Char.isDigit)
  | _ => false

/-- Whether a scalar without a sign is a float in parts to the base sixty. -/
def isBySixty (cs : List Char) : Bool :=
  match Text.splitAt ':' cs with
  | first :: second :: others =>
    let parts := second :: others
    isCount first && parts.dropLast.all isSixtieth && parts.getLast?.any isPointedSixtieth
  | _ => false

/-- Whether a scalar looks like a float. -/
def isFloat (cs : List Char) : Bool :=
  let body := (Literal.splitSign cs).2
  [".inf", ".Inf", ".INF"].contains (String.ofList body)
    || [".nan", ".NaN", ".NAN"].contains (String.ofList cs)
    || isPointed (body.length < cs.length) body || isBySixty body

/-- The digits that a text starts with, at least and at most so many, and the text after
them. -/
def digits? (least most : Nat) (cs : List Char) : Option (List Char × List Char) :=
  let ds := (cs.take most).takeWhile Char.isDigit
  if least ≤ ds.length then some (ds, cs.drop ds.length) else none

/-- The text after a sign. -/
def afterSign? (sign : Char) : List Char → Option (List Char)
  | [] => none
  | c :: cs => if c = sign then some cs else none

/-- Whether a text is a day in full. -/
def isDay (cs : List Char) : Bool :=
  Option.isSome do
    let (_, cs) ← digits? 4 4 cs
    let (_, cs) ← digits? 2 2 (← afterSign? '-' cs)
    let (_, cs) ← digits? 2 2 (← afterSign? '-' cs)
    if cs.isEmpty then some () else none

/-- The words for truth values, in small letters. -/
def truthWords : List (String × Bool) :=
  [("yes", true), ("no", false), ("true", true), ("false", false), ("on", true), ("off", false)]

/-- The forms in which a word is known: in small letters, with a capital, in capitals. -/
def forms (word : String) : List String :=
  [word, word.capitalize, String.ofList (word.toList.map Char.toUpper)]

/-- Whether a scalar is a word for a truth value. -/
def isTruth (s : String) : Bool := truthWords.any fun w => (forms w.1).contains s

/-- The words for nothing. -/
def nullWords : List String := ["~", "null", "Null", "NULL", ""]

end Yaml

end Conjunctive
