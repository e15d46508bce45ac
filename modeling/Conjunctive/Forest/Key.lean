import Conjunctive.Text.Escaped

/-!
# Keys of variable sets

A set of variables is known by a text: the names in order, each once and in its
written form, between brackets. The names are sorted by code points, so the key
does not depend on the order in which they are given.
-/

namespace Conjunctive

/-- The names of a list in order of code points, each once. -/
def sortedNames (names : List String) : List String :=
  names.eraseDups.mergeSort fun a b => decide (a ≤ b)

/-- The key of the set of the given names. -/
def canonicalKey (names : List String) : String :=
  "[" ++ String.intercalate ", " ((sortedNames names).map Text.escaped) ++ "]"

end Conjunctive
