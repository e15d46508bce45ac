import Conjunctive.Value.Basic

/-!
# Kinds of values

What messages tell of a value is the name of its kind, and where a truth value is asked
for, any value counts as one.
-/

namespace Conjunctive

namespace Time

/-- The name of the kind of a time. -/
def kind : Time → String
  | date _ => "date"
  | moment _ => "datetime"

end Time

namespace Value

/-- The name of the kind of a value, as messages give it. -/
def kind : Value → String
  | null => "NoneType"
  | bool _ => "bool"
  | int _ => "int"
  | float _ _ => "float"
  | text _ => "str"
  | unbound => "_Unbound"
  | bytes _ => "bytes"
  | time t _ => t.kind
  | list _ | part _ => "list"
  | tuple _ => "tuple"
  | set _ => "set"
  | map _ => "dict"

/-- Whether a value counts as true: nothing, zero, the empty text and empty collections do
not. -/
def isTruthy : Value → Bool
  | null => false
  | bool b => b
  | int n => n != 0
  | float x _ => !(float x).same (int 0)
  | text s => s != ""
  | bytes bs => !bs.isEmpty
  | list items | tuple items | set items => !items.isEmpty
  | map entries => !entries.isEmpty
  | unbound | time _ _ | part _ => true

end Value

end Conjunctive
