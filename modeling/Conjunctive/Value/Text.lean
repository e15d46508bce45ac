import Conjunctive.Value.Basic
import Conjunctive.Number.FloatText
import Conjunctive.Number.Literal
import Conjunctive.Text.Quoted
import Conjunctive.Time.Text

/-!
# Values as text

The text of a value is what a table or a report shows of it. In a collection, texts stand
in quotes and times are written out.
-/

namespace Conjunctive

namespace Value

/-- A byte between the given quote signs. -/
def shownByte (quote : Char) (b : UInt8) : List Char :=
  if b.toNat < 0x7F then Text.shown quote (Char.ofNat b.toNat)
  else '\\' :: 'x' :: Text.hex 2 b.toNat

/-- Bytes in quotes. -/
def quotedBytes (bs : List UInt8) : String :=
  let quote := Text.quoteSign (bs.map fun b => Char.ofNat b.toNat)
  String.ofList ('b' :: quote :: bs.flatMap (shownByte quote) ++ [quote])

/-- Texts between brackets. -/
def between (opening closing : String) (texts : List String) : String :=
  opening ++ String.intercalate ", " texts ++ closing

mutual

/-- The text of a value as one among others: a text stands in quotes. -/
def quoted : Value → String
  | null => "None"
  | bool true => "True"
  | bool false => "False"
  | int n => toString n
  | float x _ => FloatStyle.cell.write x
  | text s => Text.quoted s
  | unbound => "UNBOUND"
  | bytes bs => quotedBytes bs
  | time t _ => t.display
  | list items => between "[" "]" (quotedItems items)
  | tuple [item] => "(" ++ quoted item ++ ",)"
  | tuple items => between "(" ")" (quotedItems items)
  | set [] => "set()"
  | set items => between "\x7b" "\x7d" (quotedItems items)
  | map entries => between "\x7b" "\x7d" (quotedEntries entries)
  | part _ => "..."

/-- The texts of some values as items of a collection. -/
def quotedItems : List Value → List String
  | [] => []
  | v :: vs => quoted v :: quotedItems vs

/-- The texts of the entries of a map. -/
def quotedEntries : List (Value × Value) → List String
  | [] => []
  | (k, v) :: es => (quoted k ++ ": " ++ quoted v) :: quotedEntries es

end

/-- The text of a value: a text is its own, without quotes. -/
def display : Value → String
  | text s => s
  | time t _ => t.text
  | v => v.quoted

mutual

/-- Whether an integer of too many digits keeps a value from being written. -/
def isOverlong : Value → Bool
  | int n => Literal.isOverlong n
  | list items => anyOverlong items
  | tuple items => anyOverlong items
  | set items => anyOverlong items
  | map entries => anyEntryOverlong entries
  | _ => false

/-- Whether an integer of too many digits keeps some of the values from being written. -/
def anyOverlong : List Value → Bool
  | [] => false
  | v :: vs => isOverlong v || anyOverlong vs

/-- Whether an integer of too many digits keeps some of the entries from being written. -/
def anyEntryOverlong : List (Value × Value) → Bool
  | [] => false
  | (k, v) :: es => isOverlong k || isOverlong v || anyEntryOverlong es

end

/-- Values in brackets. -/
def quotedList (vs : List Value) : String := (list vs).quoted

end Value

end Conjunctive
