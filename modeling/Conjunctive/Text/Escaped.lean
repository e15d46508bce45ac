import Conjunctive.Text.Quoted

/-!
# Texts in quotation marks, in ASCII

A text is written between quotation marks with ASCII characters only. The
quotation mark, the backslash and the controls are escaped, and a character
beyond ASCII is written as one or two UTF-16 units in hexadecimal. Different
texts have different written forms.
-/

namespace Conjunctive

namespace Text

/-- The UTF-16 units of a character. -/
def units16 (c : Char) : List Nat :=
  let n := c.toNat
  if n < 0x10000 then [n]
  else [0xD800 + (n - 0x10000) / 0x400, 0xDC00 + (n - 0x10000) % 0x400]

/-- The written form of a character. -/
def escape (c : Char) : List Char :=
  if c = quotationMark ∨ c = '\\' then ['\\', c]
  else if c = '\n' then ['\\', 'n']
  else if c = '\r' then ['\\', 'r']
  else if c = '\t' then ['\\', 't']
  else if c = '\x0c' then ['\\', 'f']
  else if c = '\x08' then ['\\', 'b']
  else if 0x20 ≤ c.toNat ∧ c.toNat < 0x7F then [c]
  else (units16 c).flatMap fun u => '\\' :: 'u' :: hex 4 u

/-- The written form of a text. -/
def escaped (s : String) : String :=
  String.ofList (quotationMark :: s.toList.flatMap escape ++ [quotationMark])

end Text

end Conjunctive
