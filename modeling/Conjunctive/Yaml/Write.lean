import Conjunctive.Text.Base64
import Conjunctive.Yaml.Layout
import Conjunctive.Yaml.Style

/-!
# Writing a document as a YAML text

Items are written in block style, and empty lists and maps in brackets. A nested map is
indented by two columns, a list in a map not at all. Anchors and tags come before what they
belong to; a list or map with one of them starts on a line of its own. Bytes are written in
base 64, as lines of their own.
-/

namespace Conjunctive

namespace Yaml

namespace Item

/-- The number of an anchor or alias as it is written. -/
def anchorName (n : Nat) : String :=
  let digits := toString n
  "id" ++ "".pushn '0' (3 - digits.length) ++ digits

/-- The tag of bytes. -/
def binaryTag : String := "!!binary"

def setTag : String := "!!set"

/-- An anchor and a tag, each with a space in front. -/
def properties (anchor : Option Nat) (tag : Option String) : List Char :=
  (anchor.map fun n => " &" ++ anchorName n).getD "" ++ (tag.map (" " ++ ·)).getD "" |>.toList

/-- The properties of an item, each with a space in front. -/
def propertiesOf : Item → List Char
  | .alias _ => []
  | scalar anchor (.binary _) => properties anchor (some binaryTag)
  | scalar anchor _ => properties anchor none
  | list anchor _ => properties anchor none
  | map anchor isSet _ => properties anchor (if isSet then some setTag else none)

/-! ### Keys -/

/-- The greatest length of a key on one line with its colon, anchor and tag included. -/
def keyLimit : Nat := 127

/-- The length of a key with its anchor and the tag that it would have. -/
def keyLength : Item → Nat
  | .alias _ => 0
  | scalar anchor content =>
    let tag := match content with
      | .word kind s => "!!".length + kind.length + s.length
      | .text s => "!!str".length + s.length
      | .binary _ => 0
    (anchor.map fun n => "&".length + (anchorName n).length).getD 0 + tag
  | list _ _ | map _ _ _ => 0

/-- Whether a key may stand in front of its colon on one line. -/
def isSimpleKey (k : Item) : Bool :=
  decide (k.keyLength ≤ keyLimit) && match k with
    | scalar _ (.text s) => !s.isEmpty && !s.toList.any isBreak
    | scalar _ (.binary _) => false
    | _ => true

/-! ### Items -/

/-- What an item is written after: the sign of an entry of a list, the sign of a key or
value on a line of its own, or a key that ends at a column. -/
inductive Opening where
  | entry
  | sign
  | key (column : Nat)
  deriving DecidableEq

/-- Parts, each but the first on a new line. -/
def stack (indent : Nat) (parts : List (List Char)) : List Char :=
  ((parts.map fun p => newLine indent ++ p).flatten).drop (indent + 1)

/-- Lines that are indented by some columns as they are written after an opening and
properties: on the same line after a sign alone. -/
def join (opening : Opening) (properties : List Char) (indent : Nat) (lines : List Char) :
    List Char :=
  match opening with
  | .key _ => properties ++ newLine indent ++ lines
  | _ => if properties.isEmpty then ' ' :: lines else properties ++ newLine indent ++ lines

/-- How far a list is indented, if what it belongs to is indented by some columns. -/
def listIndent (opening : Opening) (hasProperties : Bool) (indent : Nat) : Nat :=
  match opening with
  | .entry => indent + 2
  | .sign => if hasProperties then indent else indent + 2
  | .key _ => indent

/-- A scalar with a space in front, at a column. -/
def content (folds : Bool) (indent column : Nat) : Content → List Char
  | .word _ s => ' ' :: s.toList
  | .text s => ' ' :: text folds indent (column + 1) s
  | .binary [] => ' ' :: double false indent column []
  | .binary bs => ' ' :: '|' :: (Text.Base64.lines bs).flatMap fun line => newLine indent ++ line

mutual

/-- An item as it is written after an opening, in a list or map that is indented by some
columns. -/
def write (opening : Opening) (indent : Nat) : Item → List Char
  | .alias n => " *".toList ++ (anchorName n).toList
  | scalar anchor c =>
    let before := propertiesOf (.scalar anchor c)
    let column := before.length + match opening with
      | .key column => column
      | _ => indent + 1
    before ++ content true (indent + 2) column c
  | list anchor [] => properties anchor none ++ " []".toList
  | list anchor (i :: is) =>
    let before := properties anchor none
    let inner := listIndent opening (!before.isEmpty) indent
    join opening before inner (stack inner (writeItems inner (i :: is)))
  | map anchor isSet [] =>
    properties anchor (if isSet then some setTag else none) ++ [' ', '\x7b', '\x7d']
  | map anchor isSet (e :: es) =>
    join opening (properties anchor (if isSet then some setTag else none)) (indent + 2)
      (stack (indent + 2) (writeEntries (indent + 2) (e :: es)))

/-- The items of a list that is indented by some columns. -/
def writeItems (indent : Nat) : List Item → List (List Char)
  | [] => []
  | i :: is => ('-' :: write .entry indent i) :: writeItems indent is

/-- The entries of a map that is indented by some columns. A key that cannot stand in front
of its colon gets a sign and a line of its own. -/
def writeEntries (indent : Nat) : List (Item × Item) → List (List Char)
  | [] => []
  | (k, v) :: es =>
    let entry :=
      if isSimpleKey k then
        let key := (match k with
          | scalar anchor c =>
            let before := properties anchor none
            before ++ content false (indent + 2) (indent + before.length) c
          | k => write .sign indent k).drop 1
        key ++ ':' :: write (.key (indent + key.length + 1)) indent v
      else '?' :: write .sign indent k ++ newLine indent ++ ':' :: write .sign indent v
    entry :: writeEntries indent es

end

end Item

/-- The text of a document. -/
def write? (d : Document) : Except WriteError String := do
  let es ← layout? d
  if es.isEmpty then pure "\x7b\x7d\n"
  else pure (String.ofList (Item.stack 0 (Item.writeEntries 0 es) ++ ['\n']))

end Yaml

end Conjunctive
