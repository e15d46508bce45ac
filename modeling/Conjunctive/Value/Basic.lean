import Conjunctive.Number.Binary64
import Conjunctive.Time.Basic

/-!
# Values

The cells of a relation and the settings hold values: nothing, a truth value, a number, a
text, bytes, a time, the mark `unbound` of a column that carries no value at all, or a
collection of values. Two values are the same when they denote the same thing, whatever
they are written as: truth values count as the numbers 0 and 1, and integers and floats
are compared exactly, so that `2 ^ 53 + 1` differs from the float `2 ^ 53`. The entries of
a map and the items of a set have no order.

Sameness is equality of denotations. Hence it is an equivalence relation, and a denotation
serves as the key under which a value is looked up. A collection denotes a text that spells
out what its items denote. Collections that may change over time are no keys.

A float that is not a number equals nothing, not even itself, but as a key it is the same as
itself, and differs from any other such float. So it denotes the object that it is.
-/

namespace Conjunctive

/-- A value. One that stands in several places of the settings is kept once: a collection
is a part then, kept under a number, and a time has a mark. A float comes with the number
of its object, which matters only if it is not a number. -/
inductive Value where
  | null
  | bool (b : Bool)
  | int (n : Int)
  | float (x : Float) (object : Nat := 0)
  | text (s : String)
  | unbound
  | bytes (bs : List UInt8)
  | time (t : Time) (mark : Option Nat)
  | list (items : List Value)
  | tuple (items : List Value)
  | set (items : List Value)
  | map (entries : List (Value × Value))
  | part (n : Nat)
  deriving Inhabited

/-- What a value denotes. -/
inductive Denotation where
  | nothing
  | number (q : Rat)
  | infinity (negative : Bool)
  | notANumber (object : Nat)
  | text (s : String)
  | unbound
  | bytes (bs : List UInt8)
  | date (d : Date)
  /-- A moment by universal time, or by the clock. -/
  | instant (universal : Bool) (micros : Int)
  /-- A collection, spelled out. -/
  | collection (spelling : String)
  deriving DecidableEq, Hashable

/-- A text behind its length, so that what follows cannot be taken for a part of it. -/
def Text.delimited (s : String) : String := toString s.length ++ ":" ++ s

namespace Denotation

/-- A spelling of a denotation. Different denotations have different spellings. -/
def spelling : Denotation → String
  | nothing => "null"
  | number q => Text.delimited (toString q.num ++ "/" ++ toString q.den)
  | infinity negative => if negative then "-inf" else "inf"
  | notANumber object => "nan" ++ Text.delimited (toString object)
  | text s => "text" ++ Text.delimited s
  | unbound => "unbound"
  | bytes bs => "bytes" ++ Text.delimited (String.intercalate "," (bs.map fun b => toString b.toNat))
  | date d => "date" ++ Text.delimited (toString d.ordinal)
  | instant universal micros =>
    (if universal then "universal" else "clock") ++ Text.delimited (toString micros)
  | collection s => s

end Denotation

namespace Time

/-- What a time denotes. -/
def denotation : Time → Denotation
  | date d => .date d
  | moment m => .instant m.offset.isSome m.instant

end Time

namespace Value

/-- The number a float denotes, if it denotes one, or else its object. -/
def denotationOfFloat (x : Float) (object : Nat := 0) : Denotation :=
  match Binary64.parts x with
  | .infinite negative => .infinity negative
  | .notANumber => .notANumber object
  | p => match p.rat? with
    | some q => .number q
    | none => .notANumber object

/-- Spellings one after the other, under the name of a kind. -/
def spelledOut (kind : String) (spellings : List String) : Denotation :=
  .collection (kind ++ Text.delimited (String.join (spellings.map Text.delimited)))

/-- Spellings in an order that does not depend on where they came from. -/
def inOrder (spellings : List String) : List String :=
  spellings.mergeSort fun s t => decide (s ≤ t)

mutual

def denotation : Value → Denotation
  | null => .nothing
  | bool b => .number (if b then 1 else 0)
  | int n => .number n
  | float x object => denotationOfFloat x object
  | text s => .text s
  | unbound => .unbound
  | bytes bs => .bytes bs
  | time t _ => t.denotation
  | list items => spelledOut "list" (spellings items)
  | tuple items => spelledOut "tuple" (spellings items)
  | set items => spelledOut "set" (inOrder (spellings items))
  | map entries => spelledOut "map" (inOrder (entrySpellings entries))
  | part n => spelledOut "part" [toString n]

/-- The spellings of what some values denote. -/
def spellings : List Value → List String
  | [] => []
  | v :: vs => v.denotation.spelling :: spellings vs

/-- The spellings of what the entries of a map denote. -/
def entrySpellings : List (Value × Value) → List String
  | [] => []
  | (k, v) :: es =>
    (Text.delimited k.denotation.spelling ++ v.denotation.spelling) :: entrySpellings es

end

/-- Whether two values denote the same thing: they are equal, or they are one object. -/
def same (v w : Value) : Bool := v.denotation == w.denotation

/-- Whether a value is a float that is not a number. -/
def isNotANumber (v : Value) : Bool :=
  match v.denotation with
  | .notANumber _ => true
  | _ => false

/-- Whether two values are equal. What is not a number equals nothing. -/
def equals (v w : Value) : Bool := v.same w && !v.isNotANumber

/-- Whether a value can be a key, or belong to a row that is looked up. -/
def isKey : Value → Bool
  | list _ | set _ | map _ | part _ => false
  | _ => true

theorem same_iff {v w : Value} : v.same w = true ↔ v.denotation = w.denotation := by
  simp [same]

@[simp] theorem same_refl (v : Value) : v.same v = true := same_iff.mpr rfl

theorem same_comm (v w : Value) : v.same w = w.same v := by
  simp [same, Bool.beq_comm]

theorem same_trans {u v w : Value} (h : u.same v = true) (k : v.same w = true) :
    u.same w = true :=
  same_iff.mpr ((same_iff.mp h).trans (same_iff.mp k))

/-- Equality differs from sameness only for what is not a number. -/
theorem equals_eq_same {v : Value} (h : v.isNotANumber = false) (w : Value) :
    v.equals w = v.same w := by
  rw [equals, h, Bool.not_false, Bool.and_true]

end Value

end Conjunctive
