import Conjunctive.Yaml.Block
import Conjunctive.Yaml.Plain
import Conjunctive.Yaml.Property
import Conjunctive.Yaml.Quoted

/-!
# Scanning a YAML text

The scan cuts a text into tokens. It keeps the columns at which the lists and maps
in block style around the current place are indented. Where a word starts farther
to the left, those to its right end.

A node is known to be a key only when the colon after it is met. Up to then it is
a candidate: there is at most one for each depth of flow brackets, which has to be
on the line of its colon and not too far before it. Where the indentation says that
a key has to come, there is an error if none does.
-/

namespace Conjunctive

namespace Yaml

/-- A place in a text. -/
structure Place where
  index : Nat
  line : Nat
  column : Nat

/-- The place after a character. A byte order mark takes no column. -/
def Place.after (p : Place) (c : Char) : Place :=
  if isBreak c then ⟨p.index + 1, p.line + 1, 0⟩
  else if c = '\ufeff' then ⟨p.index + 1, p.line, p.column⟩
  else ⟨p.index + 1, p.line, p.column + 1⟩

/-- A node that is a key if a colon follows. -/
structure Candidate where
  /-- The depth of flow brackets around it. -/
  flow : Nat
  /-- The number of tokens before it. -/
  position : Nat
  isRequired : Bool
  place : Place

/-- The state of a scan. -/
structure Scan where
  rest : List Char
  place : Place
  tokens : List Token
  /-- The columns of the lists and maps in block style, the innermost first. -/
  indents : List Nat
  flow : Nat
  isKeyAllowed : Bool
  candidates : List Candidate

namespace Scan

/-- The scan that has read nothing of a text. -/
def initial (text : List Char) : Scan := ⟨text, ⟨0, 0, 0⟩, [], [], 0, true, []⟩

/-- Whether there are flow brackets around the current place. -/
def inFlow (s : Scan) : Bool := s.flow != 0

/-- Go on to a later part of the text. -/
def goto (s : Scan) (rest : List Char) : Scan :=
  let passed := s.rest.take (s.rest.length - rest.length)
  { s with rest, place := passed.foldl Place.after s.place }

/-- Add a token. -/
def emit (s : Scan) (t : Token) : Scan := { s with tokens := s.tokens ++ [t] }

/-- Say whether a key may come next. -/
def allowKey (s : Scan) (b : Bool) : Scan := { s with isKeyAllowed := b }

/-! ### Blanks, comments and indentation -/

/-- The text after spaces, breaks and comments, and whether a break is among them. -/
def skipFrom (inComment crossed : Bool) : List Char → List Char × Bool
  | [] => ([], crossed)
  | c :: cs =>
    if isBreak c then skipFrom false true cs
    else if inComment || c == ' ' then skipFrom inComment crossed cs
    else if c = '#' then skipFrom true crossed cs
    else (c :: cs, crossed)

/-- Go on to the next token. Outside flow brackets a key may start any line. -/
def skip (s : Scan) : Scan :=
  let text := if s.place.index = 0 ∧ s.rest.head? = some '\ufeff' then s.rest.drop 1 else s.rest
  let (rest, crossed) := skipFrom false false text
  (s.goto rest).allowKey (s.isKeyAllowed || (crossed && !s.inFlow))

/-- End the lists and maps in block style that do not meet a condition on their
column, up to the first that does. -/
def unwind (s : Scan) (goesOn : Nat → Bool) : Scan :=
  if s.inFlow then s
  else
    let kept := s.indents.dropWhile (!goesOn ·)
    let ended := s.indents.length - kept.length
    { s with indents := kept, tokens := s.tokens ++ List.replicate ended .blockEnd }

/-- End all lists and maps in block style. -/
def unwindAll (s : Scan) : Scan := s.unwind fun _ => false

/-- Whether a column is farther to the right than the innermost list or map. -/
def isIndented (s : Scan) (column : Nat) : Bool := s.indents.head?.all (· < column)

/-- Start a list or map in block style at a column with a token, unless there is one
at this column. The token goes before all but the first so many. -/
def indentAt (s : Scan) (column position : Nat) (t : Token) : Scan :=
  if s.isIndented column then
    { s with indents := column :: s.indents, tokens := s.tokens.insertIdx position t }
  else s

/-- Start a list or map in block style here. -/
def indent (s : Scan) (t : Token) : Scan := s.indentAt s.place.column s.tokens.length t

/-! ### Candidates for keys -/

/-- The candidate at the current depth of flow brackets. -/
def candidate? (s : Scan) : Option Candidate := s.candidates.find? fun k => k.flow == s.flow

/-- How far after its start the colon of a key may be. -/
def keyLimit : Nat := 1024

/-- Whether a candidate can still become a key. -/
def isFresh (s : Scan) (k : Candidate) : Bool :=
  k.place.line == s.place.line && s.place.index ≤ k.place.index + keyLimit

/-- Drop the candidates that do not meet a condition; none of them may be required. -/
def keep? (s : Scan) (goesOn : Candidate → Bool) : Except ReadError Scan :=
  if s.candidates.any fun k => k.isRequired && !goesOn k then .error .refused
  else .ok { s with candidates := s.candidates.filter goesOn }

/-- Drop the candidates that are no longer fresh. -/
def dropStale? (s : Scan) : Except ReadError Scan := s.keep? s.isFresh

/-- Drop the candidate at the current depth of flow brackets. -/
def dropCandidate? (s : Scan) : Except ReadError Scan := s.keep? fun k => k.flow != s.flow

/-- Note a node that starts here as a candidate, if a key may come. -/
def addCandidate? (s : Scan) : Except ReadError Scan :=
  if s.isKeyAllowed then do
    let isRequired := !s.inFlow && s.indents.head? == some s.place.column
    let s ← s.dropCandidate?
    pure { s with candidates := ⟨s.flow, s.tokens.length, isRequired, s.place⟩ :: s.candidates }
  else .ok s

/-! ### Tokens -/

/-- What a reader of a token gives; the text is refused if it gives nothing. -/
def orRefused (r : Option (Token × List Char)) : Except ReadError (Token × List Char) :=
  (r.map Except.ok).getD (.error .refused)

/-- Read a sign of so many characters as a token. -/
def sign (s : Scan) (length : Nat) (t : Token) : Scan := (s.goto (s.rest.drop length)).emit t

/-- Read a directive or a mark at the start or end of a document. -/
def separator? (s : Scan) (read : List Char → Except ReadError (Token × List Char)) :
    Except ReadError Scan := do
  let s ← s.unwindAll.dropCandidate?
  let (t, rest) ← read s.rest
  pure (((s.allowKey false).goto rest).emit t)

/-- Read an opening bracket. -/
def openFlow? (s : Scan) (t : Token) : Except ReadError Scan := do
  let s ← s.addCandidate?
  pure (({ s with flow := s.flow + 1 }.allowKey true).sign 1 t)

/-- Read a closing bracket. -/
def closeFlow? (s : Scan) (t : Token) : Except ReadError Scan := do
  let s ← s.dropCandidate?
  pure (({ s with flow := s.flow - 1 }.allowKey false).sign 1 t)

/-- Read the comma between two entries. -/
def comma? (s : Scan) : Except ReadError Scan := do
  let s ← s.dropCandidate?
  pure ((s.allowKey true).sign 1 .comma)

/-- Read the sign of an entry of a list in block style. -/
def entry? (s : Scan) : Except ReadError Scan := do
  if !s.inFlow && !s.isKeyAllowed then .error .refused
  else
    let s := if s.inFlow then s else s.indent .blockList
    let s ← s.dropCandidate?
    pure ((s.allowKey true).sign 1 .entry)

/-- Read the sign of a key. -/
def key? (s : Scan) : Except ReadError Scan := do
  if !s.inFlow && !s.isKeyAllowed then .error .refused
  else
    let s := if s.inFlow then s else s.indent .blockMap
    let s ← s.dropCandidate?
    pure ((s.allowKey (!s.inFlow)).sign 1 .key)

/-- Read the colon of a value. If there is a candidate, it becomes the key, and may
start a map in block style. -/
def value? (s : Scan) : Except ReadError Scan :=
  match s.candidate? with
  | some k =>
    let s := { s with
      candidates := s.candidates.filter fun k => k.flow != s.flow
      tokens := s.tokens.insertIdx k.position .key }
    let s := if s.inFlow then s else s.indentAt k.place.column k.position .blockMap
    .ok ((s.allowKey false).sign 1 .value)
  | none =>
    if !s.inFlow && !s.isKeyAllowed then .error .refused
    else do
      let s := if s.inFlow then s else s.indent .blockMap
      let s ← (s.allowKey (!s.inFlow)).dropCandidate?
      pure (s.sign 1 .value)

/-- Read a node or a property of one, which may be a key. -/
def content? (s : Scan) (read : List Char → Except ReadError (Token × List Char)) :
    Except ReadError Scan := do
  let s ← s.addCandidate?
  let (t, rest) ← read s.rest
  pure (((s.allowKey false).goto rest).emit t)

/-- Read a quoted scalar. -/
def quoted? (s : Scan) (quote : Char) : Except ReadError Scan :=
  s.content? fun cs => do
    let (text, rest) ← Yaml.quoted? quote (cs.drop 1)
    pure (.scalar false (String.ofList text), rest)

/-- The least column of a line that goes on with a scalar. -/
def leastColumn (s : Scan) : Nat := (s.indents.head?.map (· + 1)).getD 0

/-- Read a plain scalar. If a break follows, a key may come after it. -/
def plain? (s : Scan) : Except ReadError Scan := do
  let s ← s.addCandidate?
  let p := Yaml.plain s.inFlow s.leastColumn s.rest
  pure (((s.allowKey p.crosses).goto p.rest).emit (.scalar true (String.ofList p.text)))

/-- Read a block scalar. -/
def block? (s : Scan) (folded : Bool) : Except ReadError Scan := do
  let s ← (s.allowKey true).dropCandidate?
  let read (cs : List Char) : Option (Token × List Char) :=
    (Yaml.block? folded (max 1 s.leastColumn) cs).map fun p =>
      (.scalar false (String.ofList p.1), p.2)
  let (t, rest) ← orRefused (read (s.rest.drop 1))
  pure ((s.goto rest).emit t)

/-- Read the next token, which starts with a character that some text follows. -/
def next? (s : Scan) (c : Char) (cs : List Char) : Except ReadError Scan :=
  let named (make : String → Token) := s.content? fun cs =>
    orRefused ((anchorName? (cs.drop 1)).map fun p => (make p.1, p.2))
  let mark (t : Token) := s.separator? fun cs => .ok (t, cs.drop 3)
  let startsLine := s.place.column == 0
  if startsLine && c == '%' then s.separator? fun cs => directive? (cs.drop 1)
  else if startsLine && isSeparator (c :: cs) then
    mark (if c = '-' then .documentStart else .documentEnd)
  else if c = '[' then s.openFlow? .flowList
  else if c = '\x7b' then s.openFlow? .flowMap
  else if c = ']' then s.closeFlow? .flowListEnd
  else if c = '\x7d' then s.closeFlow? .flowMapEnd
  else if c = ',' then s.comma?
  else if c = '-' ∧ endsWord cs then s.entry?
  else if c = '?' ∧ (s.inFlow ∨ endsWord cs) then s.key?
  else if c = ':' ∧ (s.inFlow ∨ endsWord cs) then s.value?
  else if c = '*' then named .alias
  else if c = '&' then named .anchor
  else if c = '!' then
    s.content? fun cs => orRefused ((Yaml.tag? (cs.drop 1)).map fun p => (.tag p.1, p.2))
  else if c = '|' ∧ !s.inFlow then s.block? false
  else if c = '>' ∧ !s.inFlow then s.block? true
  else if c = Text.apostrophe ∨ c = Text.quotationMark then s.quoted? c
  else if !isBlank c && startsPlain s.inFlow c cs then s.plain?
  else .error .refused

/-- The tokens of a scan after the end of its text. -/
def finish? (s : Scan) : Except ReadError (List Token) := do
  let s ← s.unwindAll.dropCandidate?
  pure s.tokens

/-- The tokens of the whole text. A token takes at least one character of it. A fault that
is told ends the text. -/
def run? : Nat → Scan → Except ReadError (List Token)
  | 0, _ => .error .refused
  | steps + 1, s => do
    let s ← s.skip.dropStale?
    let s := s.unwind (· ≤ s.place.column)
    match s.rest with
    | [] => s.finish?
    | c :: cs =>
      match s.next? c cs with
      | .ok s => run? steps s
      | .error .refused => .error .refused
      | .error e => pure (s.emit (.fault e)).tokens

end Scan

def tokens? (text : List Char) : Except ReadError (List Token) :=
  if text.all isAllowed then (Scan.initial text).run? (text.length + 1) else .error .refused

end Yaml

end Conjunctive
