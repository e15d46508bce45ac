import Conjunctive.Yaml.Character

/-!
# Gaps in a scalar

Between two words of a scalar there are blanks or line breaks. Blanks within a
line stand for themselves. Blanks at a line's ends are nothing, a single newline
between two lines counts as a space, and of several the first is dropped. The
separators of lines and paragraphs are kept in any case.
-/

namespace Conjunctive

namespace Yaml

/-- What was read of a scalar since its last word. -/
inductive Gap where
  | nothing
  | blanks (cs : List Char)
  /-- The break that ended the line, unless it was escaped, and those after it. -/
  | breaks (first : Option Char) (more : List Char)

namespace Gap

/-- A gap with a blank after it. -/
def addBlank (c : Char) : Gap → Gap
  | nothing => blanks [c]
  | blanks cs => blanks (cs ++ [c])
  | breaks first more => breaks first more

/-- A gap with a break after it. -/
def addBreak (c : Char) : Gap → Gap
  | breaks first more => breaks first (more ++ [readBreak c])
  | _ => breaks (some (readBreak c)) []

/-- Whether nothing was read since the last word. -/
def isNothing : Gap → Bool
  | nothing => true
  | _ => false

/-- Whether a gap reaches into another line. -/
def crosses : Gap → Bool
  | breaks _ _ => true
  | _ => false

/-- What a gap between two words stands for. -/
def text : Gap → List Char
  | nothing => []
  | blanks cs => cs
  | breaks none more => more
  | breaks (some first) more =>
    if first ≠ '\n' then first :: more
    else if more.isEmpty then [' ']
    else more

end Gap

end Yaml

end Conjunctive
