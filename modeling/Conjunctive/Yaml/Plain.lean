import Conjunctive.Yaml.Gap

/-!
# Plain scalars

A plain scalar stands without any sign around it. It ends before a colon that
ends a word and before a comment; between flow brackets also before a bracket, a
comma or a question mark. It goes on over lines that are indented far enough.
-/

namespace Conjunctive

namespace Yaml

/-- The brackets and the comma of flow style. -/
def flowSigns : List Char := [',', '[', ']', '\x7b', '\x7d']

/-- The signs that start no plain scalar, unless some of them are followed by a
word. -/
def indicators : List Char :=
  ['-', '?', ':', ',', '[', ']', '\x7b', '\x7d', '#', '&', '*', '!', '|', '>', '\x27', '\x22',
    '%', '@', '\x60']

/-- Whether a plain scalar starts with a character that is no blank or break, the
rest of the text being given. -/
def startsPlain (inFlow : Bool) (c : Char) (rest : List Char) : Bool :=
  !indicators.contains c
    || (!endsWord rest && (c == '-' || (!inFlow && (c == '?' || c == ':'))))

/-- Whether a plain scalar ends before a character. -/
def endsPlain (inFlow : Bool) (c : Char) (rest : List Char) : Bool :=
  (c == ':' && (endsWord rest || (inFlow && rest.head?.any flowSigns.contains)))
    || (inFlow && (c == '?' || flowSigns.contains c))

/-- A plain scalar: its text, whether the gap after it reaches into another line,
and the text after the gap. -/
structure PlainScalar where
  text : List Char
  crosses : Bool
  rest : List Char

/-- The rest of a plain scalar after a gap. Lines that are indented by less than
`indent` are none of it, which counts outside flow brackets. The column counts from
the start of a line within the gap. -/
def plainFrom (inFlow : Bool) (indent : Nat) : Gap → Nat → List Char → PlainScalar
  | gap, _, [] => ⟨[], gap.crosses, []⟩
  | gap, column, c :: cs =>
    if isBreak c then
      if isSeparator cs then ⟨[], true, cs⟩
      else plainFrom inFlow indent (gap.addBreak c) 0 cs
    else if c = ' ' then plainFrom inFlow indent (gap.addBlank c) (column + 1) cs
    else
      let outdented := gap.crosses && !inFlow && column < indent
      if c == '\t' || (c == '#' && !gap.isNothing) || outdented || endsPlain inFlow c cs then
        ⟨[], gap.crosses, c :: cs⟩
      else
        let s := plainFrom inFlow indent .nothing column cs
        { s with text := gap.text ++ c :: s.text }

/-- The plain scalar at the start of a text. -/
def plain (inFlow : Bool) (indent : Nat) (cs : List Char) : PlainScalar :=
  plainFrom inFlow indent .nothing 0 cs

end Yaml

end Conjunctive
