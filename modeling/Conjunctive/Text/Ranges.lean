/-!
# Sets of characters as ranges of code points

The character classes of a standard are long lists of code points. They are
kept as lists of closed ranges, and `inRanges` decides membership.
-/

namespace Conjunctive

namespace Text

/-- Whether the code point of a character lies in one of the closed ranges. -/
def inRanges (ranges : List (Nat × Nat)) (c : Char) : Bool :=
  ranges.any fun r => decide (r.1 ≤ c.toNat) && decide (c.toNat ≤ r.2)

theorem inRanges_iff {ranges : List (Nat × Nat)} {c : Char} :
    inRanges ranges c = true ↔ ∃ r ∈ ranges, r.1 ≤ c.toNat ∧ c.toNat ≤ r.2 := by
  simp [inRanges]

/-- A character in one of some ranges is in none of others that do not meet them. -/
theorem inRanges_eq_false_of_disjoint {ranges others : List (Nat × Nat)}
    (h : ∀ r ∈ ranges, ∀ s ∈ others, r.2 < s.1 ∨ s.2 < r.1) {c : Char}
    (hc : inRanges ranges c = true) : inRanges others c = false := by
  rw [Bool.eq_false_iff]
  intro hother
  obtain ⟨r, hr, hr₁, hr₂⟩ := inRanges_iff.mp hc
  obtain ⟨s, hs, hs₁, hs₂⟩ := inRanges_iff.mp hother
  rcases h r hr s hs with hlt | hlt <;> omega

end Text

end Conjunctive
