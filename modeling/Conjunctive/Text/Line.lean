import Conjunctive.Text.Blank

/-!
# Lines of a text

`lines` cuts a text at its line boundaries, which belong to no line. A carriage
return directly before a newline is one boundary with it, and a boundary at the
very end opens no further line. `newlines` only makes the line ends of a file equal.
-/

namespace Conjunctive

namespace Text

/-- The characters that end a line. -/
def isBoundary (c : Char) : Bool :=
  inRanges [(0xA, 0xD), (0x1C, 0x1E), (0x85, 0x85), (0x2028, 0x2029)] c

/-- The lines of a text. -/
def lines : List Char → List (List Char)
  | [] => []
  | '\r' :: '\n' :: cs => [] :: lines cs
  | c :: cs =>
    if isBoundary c then [] :: lines cs
    else
      match lines cs with
      | [] => [[c]]
      | l :: ls => (c :: l) :: ls

/-- A text of which every line ends with a newline: a carriage return, with a newline
after it or without, counts as one. -/
def newlines : List Char → List Char
  | [] => []
  | '\r' :: '\n' :: cs => '\n' :: newlines cs
  | c :: cs => (if c = '\r' then '\n' else c) :: newlines cs

@[simp] theorem lines_nil : lines [] = [] := rfl

/-- Every line boundary is blank. -/
theorem isBlank_of_isBoundary {c : Char} (h : isBoundary c = true) : isBlank c = true := by
  obtain ⟨r, hr, h₁, h₂⟩ := inRanges_iff.mp h
  simp only [List.mem_cons, List.not_mem_nil, or_false] at hr
  refine inRanges_iff.mpr ?_
  rcases hr with rfl | rfl | rfl | rfl
  · exact ⟨(0x9, 0xD), by simp [blankRanges], by simp_all; omega, by simp_all⟩
  · exact ⟨(0x1C, 0x20), by simp [blankRanges], by simp_all, by simp_all; omega⟩
  · exact ⟨(0x85, 0x85), by simp [blankRanges], h₁, h₂⟩
  · exact ⟨(0x2028, 0x2029), by simp [blankRanges], h₁, h₂⟩

end Text

end Conjunctive
