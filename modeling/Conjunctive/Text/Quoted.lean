import Conjunctive.Text.Printable

/-!
# Texts in quotes, as shown to a reader

A text is shown between apostrophes, or between quotation marks if it holds an
apostrophe and no quotation mark. The quote sign in use and the backslash are
escaped by a backslash, and so are the characters that are not shown as
themselves, by a letter or by their code point in hexadecimal.
-/

namespace Conjunctive

namespace Text

def apostrophe : Char := '\x27'

def quotationMark : Char := '\x22'

/-- A number in hexadecimal, in lower case, with leading zeros up to a width. -/
def hex (width n : Nat) : List Char :=
  let digits := Nat.toDigits 16 n
  List.replicate (width - digits.length) '0' ++ digits

/-- The quote sign for a text: a quotation mark only if that spares an escape. -/
def quoteSign (cs : List Char) : Char :=
  if cs.contains apostrophe && !cs.contains quotationMark then quotationMark else apostrophe

/-- A character between the given quote signs. -/
def shown (quote c : Char) : List Char :=
  if c = quote ∨ c = '\\' then ['\\', c]
  else if c = '\n' then ['\\', 'n']
  else if c = '\r' then ['\\', 'r']
  else if c = '\t' then ['\\', 't']
  else if isPrintable c then [c]
  else if c.toNat < 0x100 then '\\' :: 'x' :: hex 2 c.toNat
  else if c.toNat < 0x10000 then '\\' :: 'u' :: hex 4 c.toNat
  else '\\' :: 'U' :: hex 8 c.toNat

/-- A text in quotes. -/
def quoted (s : String) : String :=
  let cs := s.toList
  let quote := quoteSign cs
  String.ofList (quote :: cs.flatMap (shown quote) ++ [quote])

/-- A list of texts in quotes, in brackets. -/
def quotedList (ss : List String) : String :=
  "[" ++ String.intercalate ", " (ss.map quoted) ++ "]"

end Text

end Conjunctive
