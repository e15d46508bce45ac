import Conjunctive.Value.Basic

/-!
# Values with shared parts

A collection may stand in several places of a value. It is then kept once, in a table of
parts, and every place holds its number in the table. A part may hold itself.

`Value.expand` puts the parts back into their places and takes the marks away. A part that
stands inside itself stays a number there.
-/

namespace Conjunctive

/-- Collections that stand in several places, by number. -/
abbrev Parts := Array Value

namespace Value

mutual

/-- Put values in place of parts, and marks in place of marks. -/
def replace (part : Nat → Value) (mark : Nat → Option Nat) : Value → Value
  | .part n => part n
  | time t m => time t (m.bind mark)
  | list items => list (replaceItems part mark items)
  | tuple items => tuple (replaceItems part mark items)
  | set items => set (replaceItems part mark items)
  | map entries => map (replaceEntries part mark entries)
  | v => v

/-- Put values in place of parts in some values. -/
def replaceItems (part : Nat → Value) (mark : Nat → Option Nat) : List Value → List Value
  | [] => []
  | v :: vs => replace part mark v :: replaceItems part mark vs

/-- Put values in place of parts in the entries of a map. -/
def replaceEntries (part : Nat → Value) (mark : Nat → Option Nat) :
    List (Value × Value) → List (Value × Value)
  | [] => []
  | (k, v) :: es => (replace part mark k, replace part mark v) :: replaceEntries part mark es

end

/-- Raise the numbers of all parts and marks. -/
def shift (n : Nat) (v : Value) : Value := v.replace (fun m => part (n + m)) fun m => some (n + m)

/-- Put the parts of a table into their places, to a depth. Parts that are open, because
their own places are being filled, stay numbers. -/
def expandWithin (parts : Parts) : Nat → List Nat → Value → Value
  | 0, _, v => v
  | depth + 1, opened, v =>
    v.replace
      (fun n =>
        if opened.contains n then part n
        else expandWithin parts depth (n :: opened) (parts.getD n null))
      fun _ => none

/-- Put the parts of a table into their places. -/
def expand (parts : Parts) (v : Value) : Value := v.expandWithin parts (parts.size + 1) []

/-- What a value is: a part is the collection in the table. -/
def resolve (parts : Parts) : Value → Value
  | part n => parts.getD n null
  | v => v

end Value

end Conjunctive
