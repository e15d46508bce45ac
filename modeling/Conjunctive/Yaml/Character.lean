import Conjunctive.Text.Ranges

/-!
# Characters of a YAML text

A line ends at one of four breaks; the next line mark is read as a newline, and
the separators of lines and paragraphs stand for themselves. Controls other
than the tabulator and the breaks occur nowhere.
-/

namespace Conjunctive

namespace Yaml

/-- Whether a character ends a line. -/
def isBreak (c : Char) : Bool := c == '\n' || c == '\x85' || c == '\u2028' || c == '\u2029'

/-- A break as it is read. -/
def readBreak (c : Char) : Char := if c = '\x85' then '\n' else c

/-- Whether a character is a space or a tabulator. -/
def isBlank (c : Char) : Bool := c == ' ' || c == '\t'

/-- Whether what comes next is a blank, a break or nothing at all. -/
def endsWord (rest : List Char) : Bool := rest.head?.all fun c => isBlank c || isBreak c

/-- Whether what comes next is a break or nothing at all. -/
def endsLine (rest : List Char) : Bool := rest.head?.all isBreak

/-- Whether a line starts with the mark of a document's start or end. -/
def isSeparator (rest : List Char) : Bool :=
  (rest.take 3 == ['-', '-', '-'] || rest.take 3 == ['.', '.', '.']) && endsWord (rest.drop 3)

/-- Whether a character may occur in a YAML text. -/
def isAllowed (c : Char) : Bool :=
  Text.inRanges [(0x9, 0xA), (0xD, 0xD), (0x20, 0x7E), (0x85, 0x85), (0xA0, 0xD7FF),
    (0xE000, 0xFFFD), (0x10000, 0x10FFFF)] c

end Yaml

end Conjunctive
