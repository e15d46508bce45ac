import Conjunctive.Yaml.Character

/-!
# Block scalars

A block scalar stands on lines of its own, which are indented by the same number
of columns. Its header tells how its end is chomped, and may tell its
indentation, which is found from its first lines otherwise. A literal scalar
keeps its line breaks. In a folded one, a single break between two lines that
start with a word counts as a space.
-/

namespace Conjunctive

namespace Yaml

/-- What becomes of the breaks at the end of a block scalar: all are stripped, the
first is kept, or all are. -/
inductive Chomping where
  | strip
  | clip
  | keep

/-- The header of a block scalar. -/
structure BlockHeader where
  chomping : Chomping
  indent : Option Nat

/-- The chomping that a sign tells. -/
def chomping? (c : Char) : Option Chomping :=
  if c = '+' then some .keep
  else if c = '-' then some .strip
  else none

/-- The indentation that a digit tells; it is not zero. -/
def indent? (c : Char) : Option Nat :=
  if '1' ≤ c ∧ c ≤ '9' then some (c.toNat - '0'.toNat) else none

/-- The text after a line of which only blanks and a comment are left. -/
def afterLine? (cs : List Char) : Option (List Char) :=
  let cs := cs.dropWhile (· == ' ')
  let cs := if cs.head? = some '#' then cs.dropWhile (!isBreak ·) else cs
  if endsLine cs then some (cs.drop 1) else none

/-- The header of a block scalar and the lines after it. -/
def blockHeader? (cs : List Char) : Option (BlockHeader × List Char) := do
  let (header, rest) := match cs with
    | [] => (⟨.clip, none⟩, [])
    | c :: ds =>
      match chomping? c, indent? c with
      | some k, _ =>
        match ds.head?.bind indent? with
        | some n => (⟨k, some n⟩, ds.drop 1)
        | none => (⟨k, none⟩, ds)
      | none, some n =>
        match ds.head?.bind chomping? with
        | some k => (⟨k, some n⟩, ds.drop 1)
        | none => (⟨.clip, some n⟩, ds)
      | none, none => (⟨.clip, none⟩, cs)
  if endsLine rest || rest.head? = some ' ' then
    let rest ← afterLine? rest
    pure (header, rest)
  else none

/-- The greatest column reached by the blanks before the first word, the column so
far being given. -/
def leadingColumn (column : Nat) : List Char → Nat
  | [] => column
  | c :: cs =>
    if isBreak c then max column (leadingColumn 0 cs)
    else if c = ' ' then leadingColumn (column + 1) cs
    else column

/-- The parts of a block scalar: its lines, the break that ends the last of them,
the breaks after that, and the text after the scalar. -/
structure BlockScalar where
  lines : List Char
  lastBreak : List Char
  breaks : List Char
  rest : List Char

/-- Where in a block scalar a character is met. -/
inductive BlockPlace where
  /-- In a line, which starts with a word or not. -/
  | line (startsWithWord : Bool)
  /-- At a column before the next line. The break that ended the last line is given,
  whether that line started with a word, and the breaks since. -/
  | between (last : Option (Char × Bool)) (breaks : List Char) (column : Nat)

/-- What the breaks between two lines stand for. -/
def blockGap (folded : Bool) (last : Option (Char × Bool)) (breaks : List Char)
    (startsWithWord : Bool) : List Char :=
  match last with
  | none => breaks
  | some (b, before) =>
    if folded && b == '\n' && before && startsWithWord then
      if breaks.isEmpty then [' '] else breaks
    else b :: breaks

/-- The rest of a block scalar whose lines are indented by a number of columns. -/
def blockFrom (folded : Bool) (indent : Nat) : BlockPlace → List Char → BlockScalar
  | .line _, [] => ⟨[], [], [], []⟩
  | .between last breaks _, [] => ⟨[], (last.map Prod.fst).toList, breaks, []⟩
  | .line word, c :: cs =>
    if isBreak c then blockFrom folded indent (.between (some (readBreak c, word)) [] 0) cs
    else
      let s := blockFrom folded indent (.line word) cs
      { s with lines := c :: s.lines }
  | .between last breaks column, c :: cs =>
    if isBreak c then blockFrom folded indent (.between last (breaks ++ [readBreak c]) 0) cs
    else if column < indent then
      if c = ' ' then blockFrom folded indent (.between last breaks (column + 1)) cs
      else ⟨[], (last.map Prod.fst).toList, breaks, c :: cs⟩
    else
      let word := !isBlank c
      let s := blockFrom folded indent (.line word) cs
      { s with lines := blockGap folded last breaks word ++ c :: s.lines }

/-- The block scalar whose sign was just read, and the text after it. Its lines are
indented by `least` columns at least. -/
def block? (folded : Bool) (least : Nat) (cs : List Char) : Option (List Char × List Char) := do
  let (header, cs) ← blockHeader? cs
  let indent := match header.indent with
    | some n => least + n - 1
    | none => max least (leadingColumn 0 cs)
  let s := blockFrom folded indent (.between none [] 0) cs
  let ending := match header.chomping with
    | .strip => []
    | .clip => s.lastBreak
    | .keep => s.lastBreak ++ s.breaks
  pure (s.lines ++ ending, s.rest)

end Yaml

end Conjunctive
