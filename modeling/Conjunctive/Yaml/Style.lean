import Conjunctive.Yaml.Looks
import Conjunctive.Yaml.Plain

/-!
# How texts are written in YAML

A text stands plain if it is read back as itself; otherwise it stands between apostrophes,
or between quotation marks if it holds a character beyond ASCII, a control, or spaces
around a line break. Texts that are not keys are folded near column eighty, where a space
allows it.
-/

namespace Conjunctive

namespace Yaml

/-- The column after which texts are folded. -/
def bestWidth : Nat := 80

def spaces (n : Nat) : List Char := List.replicate n ' '

/-- A line break and the indentation of the next line. -/
def newLine (indent : Nat) : List Char := '\n' :: spaces indent

/-! ### How a text may stand -/

/-- Whether a character is written as it is between apostrophes. -/
def isOrdinary (c : Char) : Bool := c == '\n' || (0x20 ≤ c.toNat && c.toNat < 0x7F)

/-- Whether a text has a pair of neighbours of the given kinds. -/
def hasPair (p q : Char → Bool) (cs : List Char) : Bool :=
  (cs.zip (cs.drop 1)).any fun d => p d.1 && q d.2

/-- Whether a text may stand between apostrophes. -/
def mayBeSingle (cs : List Char) : Bool :=
  cs.all isOrdinary && !hasPair (· == '\n') (· == ' ') cs && !hasPair (· == ' ') (· == '\n') cs

/-- Whether a sign within a text would be read as structure, the characters around it
being given. -/
def isSignWithin (before c : Char) (rest : List Char) : Bool :=
  (c == ':' && endsWord rest) || (c == '#' && before == ' ')

/-- Whether a text has a sign of structure after a character. -/
def hasSignAfter : Char → List Char → Bool
  | _, [] => false
  | before, c :: cs => isSignWithin before c cs || hasSignAfter c cs

/-- Whether a text starts with a sign of structure. -/
def startsWithSign : List Char → Bool
  | [] => false
  | c :: cs =>
    if c = '?' ∨ c = ':' ∨ c = '-' then endsWord cs else indicators.contains c

/-- Whether a text may stand plain as far as its characters go. -/
def mayBePlain (cs : List Char) : Bool :=
  cs.all (fun c => isOrdinary c && c != '\n') && cs.head? != some ' ' && cs.getLast? != some ' '
    && cs.take 3 != ['-', '-', '-'] && cs.take 3 != ['.', '.', '.']
    && !startsWithSign cs && !(cs.head?.any fun c => hasSignAfter c (cs.drop 1))

/-! ### Plain texts and texts between apostrophes -/

/-- Where in a text that may be folded a character is met. -/
inductive FoldPlace where
  | words
  /-- After so many spaces; the first of them may be at the start of the text. -/
  | spaces (count : Nat) (atStart : Bool)
  /-- After so many breaks. -/
  | breaks (count : Nat)

/-- The rest of a text that may be folded. A single space between two words is
replaced by a new line if it stands after the best width. Breaks are written once
more, since a single one would count as a space. -/
def foldFrom (folds : Bool) (indent : Nat) (shown : Char → List Char) :
    FoldPlace → Nat → List Char → List Char
  | .words, _, [] => []
  | .spaces count _, _, [] => Yaml.spaces count
  | .breaks count, _, [] => List.replicate (count + 1) '\n' ++ Yaml.spaces indent
  | place, column, c :: cs =>
    let (gap, column) := match place with
      | .words => ([], column)
      | .spaces count atStart =>
        if c = ' ' then ([], column)
        else if count = 1 ∧ bestWidth < column ∧ folds ∧ !atStart then (newLine indent, indent)
        else (Yaml.spaces count, column + count)
      | .breaks count =>
        if c = '\n' then ([], column)
        else (List.replicate (count + 1) '\n' ++ Yaml.spaces indent, indent)
    if c = ' ' then
      match place with
      | .spaces count atStart =>
        foldFrom folds indent shown (.spaces (count + 1) atStart) column cs
      | _ => gap ++ foldFrom folds indent shown (.spaces 1 false) column cs
    else if c = '\n' then
      match place with
      | .breaks count => foldFrom folds indent shown (.breaks (count + 1)) column cs
      | _ => gap ++ foldFrom folds indent shown (.breaks 1) column cs
    else
      let text := shown c
      gap ++ text ++ foldFrom folds indent shown .words (column + text.length) cs

/-- A text that may be folded, at a column. -/
def foldText (folds : Bool) (indent column : Nat) (shown : Char → List Char) (cs : List Char) :
    List Char :=
  match cs with
  | ' ' :: rest => foldFrom folds indent shown (.spaces 1 true) column rest
  | cs => foldFrom folds indent shown .words column cs

/-- A text between apostrophes, of which those within are written twice. -/
def single (folds : Bool) (indent column : Nat) (cs : List Char) : List Char :=
  let shown (c : Char) := if c = Text.apostrophe then [c, c] else [c]
  Text.apostrophe :: foldText folds indent (column + 1) shown cs ++ [Text.apostrophe]

/-! ### Texts between quotation marks -/

/-- The letters that escape a character. -/
def escapeLetters : List (Char × Char) :=
  [('\x00', '0'), ('\x07', 'a'), ('\x08', 'b'), ('\t', 't'), ('\n', 'n'), ('\x0b', 'v'),
    ('\x0c', 'f'), ('\r', 'r'), ('\x1b', 'e'), ('\x22', '\x22'), ('\\', '\\'), ('\x85', 'N'),
    ('\xa0', '_'), ('\u2028', 'L'), ('\u2029', 'P')]

/-- The escape of a character, in capital digits. -/
def escapeOf (c : Char) : List Char :=
  let digits (width : Nat) := (Text.hex width c.toNat).map Char.toUpper
  match List.lookup c escapeLetters with
  | some letter => ['\\', letter]
  | none =>
    if c.toNat < 0x100 then '\\' :: 'x' :: digits 2
    else if c.toNat < 0x10000 then '\\' :: 'u' :: digits 4
    else '\\' :: 'U' :: digits 8

/-- Whether a character is escaped between quotation marks. -/
def isEscaped (c : Char) : Bool :=
  c == '\x22' || c == '\\' || !(0x20 ≤ c.toNat && c.toNat < 0x7F)

/-- The rest of a text between quotation marks. Characters wait for the next space or
escape before they are written. A line may end after an escape, before a space, or
before a character for which none waits. It does if it gets longer than the best
width, except next to the ends of the text; a space at the start of the next line
is escaped. The flag says that the text has just begun. -/
def doubleFrom (folds : Bool) (indent : Nat) :
    Bool → List Char → Nat → List Char → List Char
  | _, waiting, _, [] => waiting
  | isFirst, waiting, column, c :: cs =>
    let mayEnd := folds && !isFirst && !cs.isEmpty
    if isEscaped c then
      let text := waiting ++ escapeOf c
      let column := column + text.length
      if mayEnd && bestWidth < column - 1 then
        let mark := if cs.head? = some ' ' then ['\\'] else []
        text ++ '\\' :: newLine indent ++ mark
          ++ doubleFrom folds indent false [] (indent + mark.length) cs
      else text ++ doubleFrom folds indent false [] column cs
    else if mayEnd && (c == ' ' || waiting.isEmpty) && bestWidth < column + waiting.length then
      let mark := if c = ' ' then ['\\'] else []
      waiting ++ '\\' :: newLine indent ++ mark
        ++ doubleFrom folds indent false [c] (indent + mark.length) cs
    else doubleFrom folds indent false (waiting ++ [c]) column cs

/-- A text between quotation marks. -/
def double (folds : Bool) (indent column : Nat) (cs : List Char) : List Char :=
  Text.quotationMark :: doubleFrom folds indent true [] (column + 1) cs ++ [Text.quotationMark]

/-- A text as it is written at a column, its further lines being indented. -/
def text (folds : Bool) (indent column : Nat) (s : String) : List Char :=
  let cs := s.toList
  if looks s = .text ∧ mayBePlain cs then foldText folds indent column (fun c => [c]) cs
  else if mayBeSingle cs then single folds indent column cs
  else double folds indent column cs

end Yaml

end Conjunctive
