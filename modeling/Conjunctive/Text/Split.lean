/-!
# Cutting a text at a sign

`splitAt` cuts a text at every occurrence of a sign, which belongs to no part. There
is one part more than there are signs, so there is always a part.
-/

namespace Conjunctive

namespace Text

/-- The first part of a text cut at a sign, and the parts after it. -/
def splitHead (sign : Char) : List Char → List Char × List (List Char)
  | [] => ([], [])
  | c :: cs =>
    let (first, others) := splitHead sign cs
    if c = sign then ([], first :: others) else (c :: first, others)

/-- The parts of a text cut at a sign. -/
def splitAt (sign : Char) (cs : List Char) : List (List Char) :=
  (splitHead sign cs).1 :: (splitHead sign cs).2

theorem splitAt_ne_nil (sign : Char) (cs : List Char) : splitAt sign cs ≠ [] := by
  simp [splitAt]

/-- There is one part more than there are signs. -/
theorem length_splitAt (sign : Char) (cs : List Char) :
    (splitAt sign cs).length = cs.count sign + 1 := by
  simp only [splitAt, List.length_cons, Nat.add_right_cancel_iff]
  induction cs with
  | nil => rfl
  | cons c cs ih => by_cases h : c = sign <;> simp [splitHead, h, ih]

end Text

end Conjunctive
