import Conjunctive.Yaml.Error
import Conjunctive.Yaml.Gap

/-!
# Quoted scalars

Between apostrophes an apostrophe is written twice, and every other character
stands for itself. Between quotation marks a backslash starts an escape, and
one at the end of a line joins the line to the next. Lines are folded in both. A
character beyond the first plane may be escaped as its two UTF-16 units.
-/

namespace Conjunctive

namespace Yaml

/-- The escapes of a single letter, with what they stand for. -/
def escapes : List (Char × Char) :=
  [('0', '\x00'), ('a', '\x07'), ('b', '\x08'), ('t', '\t'), ('\t', '\t'), ('n', '\n'),
    ('v', '\x0b'), ('f', '\x0c'), ('r', '\r'), ('e', '\x1b'), (' ', ' '), ('\x22', '\x22'),
    ('\\', '\\'), ('/', '/'), ('N', '\x85'), ('_', '\xa0'), ('L', '\u2028'), ('P', '\u2029')]

/-- How many hexadecimal digits follow the letter of an escape. -/
def escapeWidth? (c : Char) : Option Nat :=
  if c = 'x' then some 2
  else if c = 'u' then some 4
  else if c = 'U' then some 8
  else none

/-- The value of a hexadecimal digit. -/
def hexValue? (c : Char) : Option Nat :=
  if c.isDigit then some (c.toNat - '0'.toNat)
  else if 'a' ≤ c ∧ c ≤ 'f' then some (c.toNat - 'a'.toNat + 10)
  else if 'A' ≤ c ∧ c ≤ 'F' then some (c.toNat - 'A'.toNat + 10)
  else none

/-- The number that hexadecimal digits denote. -/
def hexNumber? (cs : List Char) : Option Nat :=
  cs.foldlM (fun n c => (hexValue? c).map fun d => 16 * n + d) 0

/-- The character that two UTF-16 units make. -/
def charOfUnits? (high low : Nat) : Option Char :=
  if 0xD800 ≤ high ∧ high < 0xDC00 ∧ 0xDC00 ≤ low ∧ low < 0xE000 then
    some (Char.ofNat (0x10000 + (high - 0xD800) * 0x400 + (low - 0xDC00)))
  else none

/-- Why there is no character with a code point. -/
def codePointError (n : Nat) : ReadError :=
  if n < 0x110000 then .refused else .noCharacter n

/-- Where in a quoted scalar a character is met. -/
inductive QuotedPlace where
  | words (gap : Gap)
  | escape
  /-- Within an escape of so many more digits, with the number so far. -/
  | digits (left number : Nat)

/-- Put characters in front of a scalar that is followed by the rest of a text. -/
def prepend (cs : List Char) (r : List Char × List Char) : List Char × List Char :=
  (cs ++ r.1, r.2)

/-- The rest of a quoted scalar, and the text after its closing sign. There is none
if the sign is missing, if a document ends before it, or if an escape is unknown. -/
def quotedFrom (quote : Char) :
    QuotedPlace → List Char → Except ReadError (List Char × List Char)
  | _, [] => .error .refused
  | .words gap, c :: cs =>
    if isBreak c then
      if isSeparator cs then .error .refused else quotedFrom quote (.words (gap.addBreak c)) cs
    else if isBlank c then quotedFrom quote (.words (gap.addBlank c)) cs
    else if c = '\\' ∧ quote = Text.quotationMark then
      (quotedFrom quote .escape cs).map (prepend gap.text)
    else if c ≠ quote then
      (quotedFrom quote (.words .nothing) cs).map (prepend (gap.text ++ [c]))
    else
      match cs with
      | d :: ds =>
        if d = quote ∧ quote = Text.apostrophe then
          (quotedFrom quote (.words .nothing) ds).map (prepend (gap.text ++ [c]))
        else .ok (gap.text, d :: ds)
      | [] => .ok (gap.text, [])
  | .escape, c :: cs =>
    if isBreak c then
      if isSeparator cs then .error .refused else quotedFrom quote (.words (.breaks none [])) cs
    else
      match escapeWidth? c, List.lookup c escapes with
      | some width, _ => quotedFrom quote (.digits width 0) cs
      | none, some d => (quotedFrom quote (.words .nothing) cs).map (prepend [d])
      | none, none => .error .refused
  | .digits left number, c :: cs =>
    match hexValue? c with
    | none => .error .refused
    | some d =>
      let number := 16 * number + d
      if 1 < left then quotedFrom quote (.digits (left - 1) number) cs
      else if number.isValidChar then
        (quotedFrom quote (.words .nothing) cs).map (prepend [Char.ofNat number])
      else
        match cs with
        | '\\' :: 'u' :: d₁ :: d₂ :: d₃ :: d₄ :: rest =>
          match (hexNumber? [d₁, d₂, d₃, d₄]).bind (charOfUnits? number) with
          | some e => (quotedFrom quote (.words .nothing) rest).map (prepend [e])
          | none => .error (codePointError number)
        | _ => .error (codePointError number)

/-- The scalar whose opening sign was just read, and the text after it. -/
def quoted? (quote : Char) (cs : List Char) : Except ReadError (List Char × List Char) :=
  quotedFrom quote (.words .nothing) cs

end Yaml

end Conjunctive
