import Conjunctive.Number.FloatText
import Conjunctive.Number.Literal
import Conjunctive.Settings.Document
import Conjunctive.Time.Text
import Conjunctive.Yaml.Order

/-!
# What is written of a document

A document is written as items: scalars, lists and maps, with the keys of maps in order. A
part or a time that stands in several places is written once, with an anchor, and every
further place is an alias. Anchors are numbered in the order in which their items are met
for the second time.
-/

namespace Conjunctive

namespace Yaml

/-- Why a document cannot be written. -/
inductive WriteError where
  /-- There is a column without a value. -/
  | noText
  /-- An integer has too many digits. -/
  | tooManyDigits
  deriving DecidableEq

namespace WriteError

/-- The wording of an error, except for one that is told by its kind alone. -/
def message? : WriteError → Option String
  | noText => none
  | tooManyDigits => some Literal.unwritableMessage

end WriteError

/-- What is written of a scalar. -/
inductive Content where
  /-- A word that stands as it is, and the short name of its kind. -/
  | word (kind : String) (s : String)
  | text (s : String)
  | binary (bs : List UInt8)

/-- What is written of a value. -/
inductive Item where
  | alias (number : Nat)
  | scalar (anchor : Option Nat) (content : Content)
  | list (anchor : Option Nat) (items : List Item)
  | map (anchor : Option Nat) (isSet : Bool) (entries : List (Item × Item))

/-! ### Keys in order -/

mutual

/-- A value with the keys of its maps in order. -/
def arranged : Value → Value
  | .list items => .list (arrangedItems items)
  | .tuple items => .tuple (arrangedItems items)
  | .set items => .set ((sorted (items.map fun v => (v, ()))).map Prod.fst)
  | .map entries => .map (sorted (arrangedEntries entries))
  | v => v

/-- Values with the keys of their maps in order. -/
def arrangedItems : List Value → List Value
  | [] => []
  | v :: vs => arranged v :: arrangedItems vs

/-- Entries with the keys of their values in order. -/
def arrangedEntries : List (Value × Value) → List (Value × Value)
  | [] => []
  | (k, v) :: es => (k, arranged v) :: arrangedEntries es

end

/-! ### What stands in several places -/

/-- What can stand in several places. -/
inductive Ref where
  | part (n : Nat)
  | mark (n : Nat)
  deriving DecidableEq

/-- What was met, and what was met again, the first to be met again first. -/
structure Visits where
  met : List Ref
  again : List Ref

/-- A walk over values that notes what it meets. -/
abbrev Walk := StateT Visits (Except WriteError)

namespace Walk

/-- Note something, and go on with it if it is new. -/
def meet (r : Ref) (go : Walk Unit) : Walk Unit := do
  let s ← get
  if s.met.contains r then
    if s.again.contains r then pure () else set { s with again := s.again ++ [r] }
  else do
    set { s with met := r :: s.met }
    go

mutual

/-- Walk over a value, given how to walk over a part. -/
def value (part : Nat → Walk Unit) : Value → Walk Unit
  | .unbound => throw .noText
  | .int n => if Literal.isOverlong n then throw .tooManyDigits else pure ()
  | .time _ (some n) => meet (.mark n) (pure ())
  | .list items => values part items
  | .tuple items => values part items
  | .set items => values part items
  | .map es => entries part es
  | .part n => meet (.part n) (part n)
  | _ => pure ()

/-- Walk over values one after the other. -/
def values (part : Nat → Walk Unit) : List Value → Walk Unit
  | [] => pure ()
  | v :: vs => do
    value part v
    values part vs

/-- Walk over entries one after the other, the keys before their values. -/
def entries (part : Nat → Walk Unit) : List (Value × Value) → Walk Unit
  | [] => pure ()
  | (k, v) :: es => do
    value part k
    value part v
    entries part es

end

/-- Walk over a part, to a depth. -/
def partWithin (parts : Parts) : Nat → Nat → Walk Unit
  | 0, _ => pure ()
  | depth + 1, n => value (partWithin parts depth) (parts.getD n .null)

end Walk

/-! ### Items -/

/-- A builder of items, which knows what was written. -/
abbrev Builder := StateM (List Ref)

namespace Builder

/-- Write something that may stand in several places: with its number if it does. -/
def once (again : List Ref) (r : Ref) (write : Option Nat → Builder Item) : Builder Item := do
  match again.idxOf? r with
  | none => write none
  | some n =>
    if (← get).contains r then pure (.alias (n + 1))
    else do
      modify (r :: ·)
      write (some (n + 1))

mutual

/-- The item for a value, given the items for parts. -/
def item (again : List Ref) (part : Option Nat → Nat → Builder Item) (anchor : Option Nat) :
    Value → Builder Item
  | .null | .unbound => pure (.scalar anchor (.word "null" "null"))
  | .bool b => pure (.scalar anchor (.word "bool" (if b then "true" else "false")))
  | .int n => pure (.scalar anchor (.word "int" (toString n)))
  | .float x _ => pure (.scalar anchor (.word "float" (FloatStyle.setting.write x)))
  | .text s => pure (.scalar anchor (.text s))
  | .bytes bs => pure (.scalar anchor (.binary bs))
  | .time t none => pure (.scalar anchor (.word "timestamp" t.text))
  | .time t (some n) =>
    once again (.mark n) fun anchor => pure (.scalar anchor (.word "timestamp" t.text))
  | .list vs => return .list anchor (← items again part vs)
  | .tuple vs => return .list anchor (← items again part vs)
  | .set vs => return .map anchor true (← members again part vs)
  | .map es => return .map anchor false (← entries again part es)
  | .part n => once again (.part n) fun anchor => part anchor n

/-- The items for some values. -/
def items (again : List Ref) (part : Option Nat → Nat → Builder Item) :
    List Value → Builder (List Item)
  | [] => pure []
  | v :: vs => return (← item again part none v) :: (← items again part vs)

/-- The entries for the members of a set: keys without values. -/
def members (again : List Ref) (part : Option Nat → Nat → Builder Item) :
    List Value → Builder (List (Item × Item))
  | [] => pure []
  | v :: vs => do
    let key ← item again part none v
    return (key, .scalar none (.word "null" "null")) :: (← members again part vs)

/-- The entries for those of a map. -/
def entries (again : List Ref) (part : Option Nat → Nat → Builder Item) :
    List (Value × Value) → Builder (List (Item × Item))
  | [] => pure []
  | (k, v) :: es => do
    let key ← item again part none k
    let value ← item again part none v
    return (key, value) :: (← entries again part es)

end

/-- The item for a part, to a depth. -/
def partWithin (parts : Parts) (again : List Ref) : Nat → Option Nat → Nat → Builder Item
  | 0, anchor, _ => pure (.list anchor [])
  | depth + 1, anchor, n =>
    item again (partWithin parts again depth) anchor (parts.getD n .null)

end Builder

/-- The entries that are written of a document. -/
def layout? (d : Document) : Except WriteError (List (Item × Item)) := do
  let parts := d.parts.map arranged
  let es := (arranged d.root).entries
  let depth := parts.size + 1
  let (_, visits) ← (Walk.entries (Walk.partWithin parts depth) es).run ⟨[], []⟩
  let build := Builder.entries visits.again (Builder.partWithin parts visits.again depth) es
  pure (build.run []).1

end Yaml

end Conjunctive
