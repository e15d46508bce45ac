import Conjunctive.Yaml.Quoted
import Conjunctive.Yaml.Token

/-!
# Properties of nodes, and directives

A node may have an anchor, under which an alias finds it again, and a tag that names its
kind. A tag is written in full between angle brackets, or as a handle and the rest of its
name; a percent sign and two hexadecimal digits stand for a byte of the name.

A line at the start of a document that starts with a percent sign is a directive. It may
tell the version, or the beginning of tags that a handle stands for.
-/

namespace Conjunctive

namespace Yaml

/-- Whether a character may be part of a name. -/
def isNamePart (c : Char) : Bool := c.isAlphanum || c == '-' || c == '_'

/-- The name of an anchor or alias whose sign was just read, and the text after it. -/
def anchorName? (cs : List Char) : Option (String × List Char) :=
  let name := cs.takeWhile isNamePart
  let rest := cs.dropWhile isNamePart
  let ends := endsWord rest || rest.head?.any ['?', ':', ',', ']', '\x7d', '%', '@', '\x60'].contains
  if !name.isEmpty && ends then some (String.ofList name, rest) else none

/-! ### Tags -/

/-- Whether a character may be part of a tag as it is. -/
def isTagPart (c : Char) : Bool := c.isAlphanum || "-;/?:@&=+$,_.!~*'()[]".toList.contains c

/-- The bytes that are written in hexadecimal at the start of a text, and the text after
them. -/
def escapedBytes? : List Char → Option (List UInt8 × List Char)
  | '%' :: a :: b :: cs =>
    match hexNumber? [a, b], escapedBytes? cs with
    | some n, some (bs, rest) => some (UInt8.ofNat n :: bs, rest)
    | _, _ => none
  | '%' :: _ => none
  | cs => some ([], cs)

/-- The text that bytes spell. -/
def decoded? (bs : List UInt8) : Option (List Char) :=
  (String.fromUTF8? ⟨bs.toArray⟩).map String.toList

/-- A part of a tag that may be empty, and the text after it. The bound is on the number
of characters. -/
def tagPart? : Nat → List Char → Option (List Char × List Char)
  | 0, cs => some ([], cs)
  | bound + 1, cs => do
    let plain := cs.takeWhile isTagPart
    match cs.dropWhile isTagPart with
    | '%' :: rest => do
      let (bs, rest) ← escapedBytes? ('%' :: rest)
      let escaped ← decoded? bs
      let (more, rest) ← tagPart? bound rest
      pure (plain ++ escaped ++ more, rest)
    | rest => pure (plain, rest)

/-- A part of a tag that is not empty, and the text after it. -/
def tagName? (cs : List Char) : Option (String × List Char) :=
  if cs.head?.any fun c => isTagPart c || c == '%' then
    (tagPart? cs.length cs).map fun p => (String.ofList p.1, p.2)
  else none

/-- The handle whose first sign was just read, if it has a second one, and the text after
it. -/
def longHandle? (cs : List Char) : Option (String × List Char) :=
  match cs.dropWhile isNamePart with
  | '!' :: rest => some ("!" ++ String.ofList (cs.takeWhile isNamePart) ++ "!", rest)
  | _ => none

/-- Whether a text goes on with a space or ends a line. -/
def endsTag (rest : List Char) : Bool := endsWord rest && rest.head? != some '\t'

/-- Whether a word has an exclamation mark. -/
def hasMark (cs : List Char) : Bool :=
  (cs.takeWhile fun c => c != ' ' && !isBreak c).contains '!'

/-- The tag whose first sign was just read, and the text after it. -/
def tag? (cs : List Char) : Option (WrittenTag × List Char) := do
  let (tag, rest) ← match cs with
    | '<' :: cs => do
      let (name, rest) ← tagName? cs
      if rest.head? = some '>' then some (WrittenTag.mk none name, rest.drop 1) else none
    | cs =>
      if endsWord cs then some (⟨none, "!"⟩, cs)
      else do
        let (handle, rest) ← if hasMark cs then longHandle? cs else some ("!", cs)
        let (name, rest) ← tagName? rest
        pure (⟨some handle, name⟩, rest)
  if endsTag rest then some (tag, rest) else none

/-! ### Directives -/

/-- A number of a version, and the text after it. -/
def versionNumber? (cs : List Char) : Except ReadError (Nat × List Char) :=
  let digits := cs.takeWhile Char.isDigit
  if digits.isEmpty then .error .refused
  else if Literal.digitLimit < digits.length then
    .error (.number (.tooManyDigits digits.length))
  else .ok (Literal.natural digits, cs.dropWhile Char.isDigit)

/-- The version that a directive tells, and the text after it. -/
def version? (cs : List Char) : Except ReadError (Token × List Char) := do
  let (major, rest) ← versionNumber? cs
  if rest.head? ≠ some '.' then .error .refused
  else do
    let (_, rest) ← versionNumber? (rest.drop 1)
    if endsTag rest then .ok (.version major, rest) else .error .refused

/-- The handle of tags that a directive tells, and the text after it. -/
def handle? (cs : List Char) : Option (Token × List Char) := do
  let (name, rest) ← match cs with
    | '!' :: ' ' :: rest => some ("!", ' ' :: rest)
    | '!' :: rest => longHandle? rest
    | _ => none
  if rest.head? ≠ some ' ' then none
  else do
    let (beginning, rest) ← tagName? (rest.dropWhile (· == ' '))
    if endsTag rest then some (.handle name beginning, rest) else none

/-- The text after the line of a directive, on which a comment may follow. -/
def afterDirective? (cs : List Char) : Except ReadError (List Char) :=
  match cs.dropWhile (· == ' ') with
  | [] => .ok []
  | c :: rest =>
    if isBreak c then .ok rest
    else if c = '#' then .ok ((rest.dropWhile (!isBreak ·)).drop 1)
    else .error .refused

/-- The token of a directive whose sign was just read, and the text after its line. -/
def directive? (cs : List Char) : Except ReadError (Token × List Char) := do
  let name := cs.takeWhile isNamePart
  let rest := cs.dropWhile isNamePart
  let argument := rest.dropWhile (· == ' ')
  if name.isEmpty || !endsTag rest then .error .refused
  else do
    let (token, rest) ←
      match String.ofList name with
      | "YAML" => version? argument
      | "TAG" => ((handle? argument).map Except.ok).getD (.error .refused)
      | _ => .ok (.directive, rest.dropWhile (!isBreak ·))
    pure (token, ← afterDirective? rest)

end Yaml

end Conjunctive
