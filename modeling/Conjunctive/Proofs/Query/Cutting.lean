import Conjunctive.Proofs.Text
import Conjunctive.Query.Splitting
import Mathlib.Data.List.Basic

/-!
# Cutting a text in one pass

Queries are cut line by line, and the pieces of a query are gathered from the
lines. `Splitting.follow` does both in one pass over the characters of the text:
a line boundary adds the piece at hand to what was gathered and starts the next
line outside quotes. It gives the same queries (`follow_eq_gather`), since a
carriage return and a newline only make an empty line between them, to which
nothing is added.
-/

namespace Conjunctive

namespace Splitting

open Text

/-- Where a pass through a line stands: outside quotes, in a string, perhaps after a
backslash, or in a comment. -/
inductive Mode where
  | plain
  | quoted (quote : Char) (escaped : Bool)
  | comment

/-- Cut a text at the dots that end queries, with what was gathered of the query at
hand, the piece of it in the line at hand, and the character before. -/
def follow (gathered piece : List Char) (before : Option Char) :
    Mode → List Char → List (List Char)
  | _, [] => if extend gathered piece = [] then [] else [extend gathered piece]
  | mode, c :: cs =>
    if isBoundary c then follow (extend gathered piece) [] none .plain cs
    else
      match mode with
      | .comment => follow gathered piece (some c) .comment cs
      | .quoted quote escaped =>
        let next : Mode :=
          if escaped then .quoted quote false
          else if c = '\\' then .quoted quote true
          else if c = quote then .plain
          else .quoted quote false
        follow gathered (piece ++ [c]) (some c) next cs
      | .plain =>
        if c = apostrophe ∨ c = quotationMark then
          follow gathered (piece ++ [c]) (some c) (.quoted c false) cs
        else if Token.isCommentSign c then follow gathered piece (some c) .comment cs
        else if c = '.' ∧ ¬ (isDigit? before ∧ isDigit? cs.head?) then
          extend gathered (piece ++ [c]) :: follow [] [] (some c) .plain cs
        else follow gathered (piece ++ [c]) (some c) .plain cs

theorem extend_nil (gathered : List Char) : extend gathered [] = gathered := rfl

/-! ### One line -/

/-- What is gathered from a line on, some of it having been cut. -/
def gatherFrom (gathered piece : List Char) (before quote : Option Char) (escaped : Bool)
    (line : List Char) (lines : List (List Char)) : List (List Char) :=
  match cutLine before quote escaped line with
  | ([], last) => gather (extend gathered (piece ++ last)) lines
  | (p :: ps, last) =>
    extend gathered (piece ++ p) :: ps.map (extend []) ++ gather (extend [] last) lines

theorem gather_cons (gathered line : List Char) (lines : List (List Char)) :
    gather gathered (line :: lines) = gatherFrom gathered [] none none false line lines := by
  rw [gather, gatherFrom]
  rcases cutLine none none false line with ⟨_ | ⟨p, ps⟩, last⟩ <;> rfl

theorem gatherFrom_nil (gathered piece : List Char) (before quote : Option Char) (escaped : Bool)
    (lines : List (List Char)) :
    gatherFrom gathered piece before quote escaped [] lines =
      gather (extend gathered piece) lines := by
  rw [gatherFrom, cutLine]
  change gather (extend gathered (piece ++ [])) lines = _
  rw [List.append_nil]

/-- What cutting a line gives when its first character is kept. -/
def keepFirst (c : Char) : List (List Char) × List Char → List (List Char) × List Char
  | ([], last) => ([], c :: last)
  | (p :: ps, last) => ((c :: p) :: ps, last)

variable {gathered piece : List Char} {before quote : Option Char} {escaped : Bool} {c : Char}
  {line : List Char} {lines : List (List Char)}

/-- A character that is kept joins the piece at hand. -/
theorem gatherFrom_keep {quote' : Option Char} {escaped' : Bool}
    (h : cutLine before quote escaped (c :: line) =
      keepFirst c (cutLine (some c) quote' escaped' line)) :
    gatherFrom gathered piece before quote escaped (c :: line) lines =
      gatherFrom gathered (piece ++ [c]) (some c) quote' escaped' line lines := by
  rw [gatherFrom, gatherFrom, h]
  rcases cutLine (some c) quote' escaped' line with ⟨_ | ⟨p, ps⟩, last⟩ <;>
    simp only [keepFirst, List.append_assoc, List.singleton_append]

/-- What is gathered from some place in a line on, by where the line stands there. -/
def resume (gathered piece : List Char) (before : Option Char) (mode : Mode)
    (line : List Char) (lines : List (List Char)) : List (List Char) :=
  match mode with
  | .plain => gatherFrom gathered piece before none false line lines
  | .quoted quote escaped => gatherFrom gathered piece before (some quote) escaped line lines
  | .comment => gather (extend gathered piece) lines

theorem resume_nil (mode : Mode) :
    resume gathered piece before mode [] lines = gather (extend gathered piece) lines := by
  cases mode with
  | plain => exact gatherFrom_nil gathered piece before none false lines
  | quoted quote escaped => exact gatherFrom_nil gathered piece before (some quote) escaped lines
  | comment => rfl

/-- In a string, characters are kept up to its end. -/
theorem resume_quoted (q : Char) (escaped : Bool) :
    resume gathered piece before (.quoted q escaped) (c :: line) lines =
      resume gathered (piece ++ [c]) (some c)
        (if escaped then .quoted q false
        else if c = '\\' then .quoted q true
        else if c = q then .plain
        else .quoted q false) line lines := by
  split_ifs with hescaped hbackslash hquote <;> apply gatherFrom_keep <;> rw [cutLine] <;>
    dsimp only
  · rw [if_pos hescaped]
    rfl
  · rw [if_neg hescaped, if_pos hbackslash]
    rfl
  · rw [if_neg hescaped, if_neg hbackslash, if_pos hquote]
    rfl
  · rw [if_neg hescaped, if_neg hbackslash, if_neg hquote]
    rfl

/-- Outside quotes, a quote sign begins a string, a comment sign ends the line, and a
dot that is no decimal point ends a query. -/
theorem resume_plain :
    resume gathered piece before .plain (c :: line) lines =
      if c = apostrophe ∨ c = quotationMark then
        resume gathered (piece ++ [c]) (some c) (.quoted c false) line lines
      else if Token.isCommentSign c then resume gathered piece (some c) .comment line lines
      else if c = '.' ∧ ¬ (isDigit? before ∧ isDigit? line.head?) then
        extend gathered (piece ++ [c]) :: resume [] [] (some c) .plain line lines
      else resume gathered (piece ++ [c]) (some c) .plain line lines := by
  split_ifs with hquote hsign hdot
  · apply gatherFrom_keep
    rw [cutLine]
    dsimp only
    rw [if_pos hquote]
    rfl
  · change gatherFrom _ _ _ _ _ _ _ = gather (extend gathered piece) lines
    rw [gatherFrom, cutLine]
    dsimp only
    rw [if_neg hquote, if_pos hsign]
    change gather (extend gathered (piece ++ [])) lines = _
    rw [List.append_nil]
  · change gatherFrom _ _ _ _ _ _ _ =
      extend gathered (piece ++ [c]) :: gatherFrom [] [] (some c) none false line lines
    rw [gatherFrom, cutLine]
    dsimp only
    rw [if_neg hquote, if_neg hsign, if_pos hdot, gatherFrom]
    rcases cutLine (some c) none false line with ⟨_ | ⟨p, ps⟩, last⟩ <;> rfl
  · apply gatherFrom_keep
    rw [cutLine]
    dsimp only
    rw [if_neg hquote, if_neg hsign, if_neg hdot]
    rfl

/-! ### All lines -/

/-- What is gathered from the lines of a text. -/
theorem gather_lines (gathered cs : List Char) :
    gather gathered (Text.lines cs) =
      resume gathered [] none .plain ((Text.lines cs).headD []) (Text.lines cs).tail := by
  cases Text.lines cs with
  | nil => rw [List.headD_nil, List.tail_nil, resume_nil, extend_nil]
  | cons line lines => exact gather_cons gathered line lines

theorem headD_lines_of_isBoundary (h : isBoundary c = true) (cs : List Char) :
    (Text.lines (c :: cs)).headD [] = [] := by
  rw [Text.lines.eq_def]
  split
  next heq => cases heq
  next => rfl
  next heq =>
    cases heq
    rw [if_pos h]
    rfl

theorem isDigit_of_isBoundary (h : isBoundary c = true) : isDigit c = false :=
  inRanges_eq_false_of_disjoint (by decide) h

/-- The next character of a line is a digit if that of the text is one. -/
theorem isDigit?_head_lines (cs : List Char) :
    isDigit? ((Text.lines cs).headD []).head? = isDigit? cs.head? := by
  cases cs with
  | nil => rfl
  | cons c cs =>
      by_cases h : isBoundary c = true
      · rw [headD_lines_of_isBoundary h]
        exact (isDigit_of_isBoundary h).symm
      · rw [lines_of_not_isBoundary (Bool.eq_false_iff.mpr h)]
        rfl

/-! ### The pass -/

/-- A line boundary ends the piece at hand, wherever the pass stands. -/
theorem follow_boundary (h : isBoundary c = true) (gathered piece : List Char)
    (before : Option Char) (mode : Mode) (cs : List Char) :
    follow gathered piece before mode (c :: cs) =
      follow (extend gathered piece) [] none .plain cs := by
  rw [follow.eq_def]
  dsimp only
  rw [if_pos h]

/-- If the pass cuts what the lines of a text are cut into, it does so with one more
character in front that is no boundary. -/
theorem follow_cons_eq_resume (h : isBoundary c = false) {cs : List Char}
    (ih : ∀ gathered piece before mode, follow gathered piece before mode cs =
      resume gathered piece before mode ((Text.lines cs).headD []) (Text.lines cs).tail)
    (gathered piece : List Char) (before : Option Char) (mode : Mode) :
    follow gathered piece before mode (c :: cs) =
      resume gathered piece before mode ((Text.lines (c :: cs)).headD [])
        (Text.lines (c :: cs)).tail := by
  rw [lines_of_not_isBoundary h, List.headD_cons, List.tail_cons, follow.eq_def]
  dsimp only
  rw [if_neg (by rw [h]; exact Bool.false_ne_true)]
  cases mode with
  | plain =>
      rw [resume_plain, isDigit?_head_lines]
      simp only [ih]
  | quoted quote escaped =>
      rw [resume_quoted]
      exact ih ..
  | comment => exact ih ..

theorem follow_eq_resume (gathered piece : List Char) (before : Option Char) (mode : Mode)
    (cs : List Char) :
    follow gathered piece before mode cs =
      resume gathered piece before mode ((Text.lines cs).headD []) (Text.lines cs).tail := by
  induction cs using Text.lines.induct generalizing gathered piece before mode with
  | case1 =>
      rw [Text.lines_nil, List.headD_nil, List.tail_nil, resume_nil]
      rfl
  | case2 cs ih =>
      -- the line between a carriage return and a newline adds nothing
      rw [follow_boundary rfl, follow_boundary rfl, extend_nil, ih, ← gather_lines, Text.lines,
        List.headD_cons, List.tail_cons, resume_nil]
  | case3 c cs hpair h ih =>
      rw [follow_boundary h, ih, ← gather_lines, Text.lines, if_pos h, List.headD_cons,
        List.tail_cons, resume_nil]
      exact hpair
  | case4 c cs _ h _ ih => exact follow_cons_eq_resume (Bool.eq_false_iff.mpr h) ih ..
  | case5 c cs _ h _ _ _ ih => exact follow_cons_eq_resume (Bool.eq_false_iff.mpr h) ih ..

/-- The pass cuts a text into its queries. -/
theorem follow_eq_gather (cs : List Char) :
    follow [] [] none .plain cs = gather [] (Text.lines cs) := by
  rw [follow_eq_resume, gather_lines]

end Splitting

end Conjunctive
