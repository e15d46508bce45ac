import Conjunctive.Number.Loose
import Conjunctive.Time.Text

/-!
# Faults of a YAML text

A text is refused if it is not well formed, or if a node does not suit its tag. That is not
told any further. A scalar that names a kind and is nothing of this kind is a fault of its
own, and so is an escape for a character that does not exist.
-/

namespace Conjunctive

namespace Yaml

/-- Why a text holds no value. -/
inductive ReadError where
  /-- The text is refused. -/
  | refused
  | number (e : NumberError)
  | time (e : TimeError)
  /-- A number has no characters, or none but its sign. -/
  | emptyNumber
  /-- A truth value is not one of the words for truth values. -/
  | noTruth
  /-- A time is not written like one. -/
  | noTime
  /-- A time is a collection, of the kind given. -/
  | timeFrom (kind : String)
  /-- There is no character with this code point. -/
  | noCharacter (n : Nat)
  /-- A node leads back to itself for ever. -/
  | endless
  deriving DecidableEq

/-- The largest number that a code point is compared with; larger ones are no code points
at all. -/
def codePointLimit : Nat := 0x80000000

namespace ReadError

/-- The wording of an error, except for those that are told by their kind alone. -/
def message? : ReadError → Option String
  | number e => some e.message
  | time e => some e.message
  | timeFrom kind => some ("expected string or bytes-like object, got '" ++ kind ++ "'")
  | noCharacter n => if n < codePointLimit then some "chr() arg not in range(0x110000)" else none
  | endless => some "maximum recursion depth exceeded"
  | refused | emptyNumber | noTruth | noTime => none

end ReadError

end Yaml

end Conjunctive
