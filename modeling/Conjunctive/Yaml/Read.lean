import Conjunctive.Settings.Document
import Conjunctive.Text.Base64
import Conjunctive.Yaml.Node
import Conjunctive.Yaml.Number

/-!
# Reading a document from a YAML text

The values of nodes are made one level after the other: a scalar at once, and of a list or
a map first the root, then what the root holds, and so on. Hence the first fault of the
outermost level is told.

Of two entries of a map with one key the later counts, at the place of the earlier. Under
the merge key a map takes over the entries of other maps, which its own entries come after;
of several such maps the first counts most. A map that stands for a scalar has this scalar
under the sign of a value without a name.

If no node has an alias, the values form a tree. Otherwise every list and map is a part,
and every time is marked by the number of its node.
-/

namespace Conjunctive

namespace Yaml

/-- Nodes of which some have values, and lists and maps that wait for what they hold. -/
structure Making where
  nodes : Array Node
  values : Array (Option Value)
  /-- What was made of lists and maps. -/
  parts : Array Value
  waiting : List Nat

/-- A maker of values. -/
abbrev Maker := StateT Making (Except ReadError)

namespace Maker

/-- Refuse the text. -/
def refuse {α : Type} : Maker α := throw .refused

/-- The node with a number. -/
def node (n : Nat) : Maker Node := do
  match (← get).nodes[n]? with
  | some node => pure node
  | none => refuse

def kind (n : Nat) : Maker (Option Kind) := return (← node n).kind

/-- The entries of a node that is a map. -/
def entries (n : Nat) : Maker (List (Nat × Nat)) := do
  match (← node n).inside with
  | .map es => pure es
  | _ => refuse

/-! ### Merging -/

/-- Change the entries of a node. -/
def setEntries (n : Nat) (es : List (Nat × Nat)) : Maker Unit :=
  modify fun s => { s with nodes := s.nodes.modify n fun node => { node with inside := .map es } }

/-- Change the kind of a node. -/
def setKind (n : Nat) (k : Kind) : Maker Unit :=
  modify fun s => { s with nodes := s.nodes.modify n fun node => { node with kind := some k } }

/-- How many steps a merge may take. -/
def mergeLimit : Nat := 1000000

mutual

/-- Let a map take over the entries of those it merges, which are removed from it one by
one. The entries before a place were looked at, and some entries were taken over. -/
def mergeFrom (n place : Nat) (taken : List (Nat × Nat)) : Nat → Maker Unit
  | 0 => throw .endless
  | steps + 1 => do
    let es ← entries n
    match es[place]? with
    | none => if taken.isEmpty then pure () else setEntries n (taken ++ es)
    | some (k, v) =>
      match ← kind k with
      | some .merge => do
        setEntries n (es.eraseIdx place)
        let more ← mergedEntries v steps
        mergeFrom n place (taken ++ more) steps
      | some .default => do
        setKind k .text
        mergeFrom n (place + 1) taken steps
      | _ => mergeFrom n (place + 1) taken steps

/-- The entries to take over from the node under a merge key: a map, or a list of maps, of
which the first comes last. -/
def mergedEntries (v : Nat) : Nat → Maker (List (Nat × Nat))
  | 0 => throw .endless
  | steps + 1 => do
    match (← node v).inside with
    | .map _ => do
      mergeFrom v 0 [] steps
      entries v
    | .list items => mergedItems items steps
    | .scalar _ => refuse

/-- The entries to take over from the maps in a list, those of the last map first. -/
def mergedItems (items : List Nat) : Nat → Maker (List (Nat × Nat))
  | 0 => throw .endless
  | steps + 1 => do
    match items with
    | [] => pure []
    | i :: is => do
      let _ ← entries i
      mergeFrom i 0 [] steps
      let own ← entries i
      return (← mergedItems is steps) ++ own

end

/-! ### Scalars -/

/-- The text of a scalar, or of the scalar that a map stands for. -/
def text (n : Nat) : Nat → Maker String
  | 0 => throw .endless
  | steps + 1 => do
    match (← node n).inside with
    | .scalar s => pure s
    | .list _ => refuse
    | .map es => do
      match ← es.findM? fun e => return (← kind e.1) == some .default with
      | some (_, v) => text v steps
      | none => refuse

/-- The word for a kind of node that is no scalar. -/
def insideKind : Inside → Option String
  | .scalar _ => none
  | .list _ | .map _ => some "list"

def scalar (k : Kind) (n : Nat) : Maker Value := do
  let s ← text n mergeLimit
  match k with
  | .null => pure .null
  | .bool =>
    match List.lookup (String.ofList (s.toList.map Char.toLower)) truthWords with
    | some b => pure (.bool b)
    | none => throw .noTruth
  | .int => return .int (← (int? s : Except ReadError Int))
  | .float => return .float (← (float? s : Except ReadError Float))
  | .binary =>
    if s.toList.all fun c => c.toNat < 0x80 then
      match Text.Base64.decode? s.toList with
      | some bs => pure (.bytes bs)
      | none => refuse
    else refuse
  | .time =>
    match insideKind (← node n).inside with
    | some kind => throw (.timeFrom kind)
    | none => return .time (← (time? s : Except ReadError Time)) (some n)
  | .text => pure (.text s)
  | _ => refuse

/-! ### Lists and maps -/

/-- The value of a node. Lists and maps stay empty and wait. -/
def value (n : Nat) : Maker Value := do
  match (← get).values.getD n none with
  | some v => pure v
  | none => do
    let v ← match ← kind n with
      | none | some .merge | some .default => refuse
      | some .list | some .pairs | some .set | some .map => do
        modify fun s => { s with waiting := s.waiting ++ [n] }
        pure (.part n)
      | some k => scalar k n
    modify fun s => { s with values := s.values.setIfInBounds n (some v) }
    pure v

/-- The key that a node is. -/
def key (n : Nat) : Maker Value := do
  let v ← value n
  if v.isKey then pure v else refuse

/-- The entries of a map, without those of merged maps. -/
def ownEntries (n : Nat) : Maker (List (Value × Value)) := do
  let _ ← entries n
  mergeFrom n 0 [] mergeLimit
  (← entries n).foldlM
    (fun es e => do
      let k ← key e.1
      let v ← value e.2
      pure (Value.insert k v es))
    []

/-- The pair that a map of one entry is. -/
def pair (n : Nat) : Maker Value := do
  match ← entries n with
  | [(k, v)] => return .tuple [← value k, ← value v]
  | _ => refuse

/-- The items of a node that is a list. -/
def items (n : Nat) : Maker (List Nat) := do
  match (← node n).inside with
  | .list is => pure is
  | _ => refuse

/-- What a list or map holds. -/
def collection (n : Nat) : Maker Value := do
  match ← kind n with
  | some .list => return .list (← (← items n).mapM value)
  | some .pairs => return .list (← (← items n).mapM pair)
  | some .set => return .set ((← ownEntries n).map Prod.fst)
  | _ => return .map (← ownEntries n)

/-- Make what waits, at most so many lists and maps. -/
def all : Nat → Maker Unit
  | 0 => pure ()
  | bound + 1 => do
    match (← get).waiting with
    | [] => pure ()
    | n :: rest => do
      modify fun s => { s with waiting := rest }
      let v ← collection n
      modify fun s => { s with parts := s.parts.setIfInBounds n v }
      all bound

end Maker

/-- The document of some nodes. -/
def Graph.document? (g : Graph) : Except ReadError Document := do
  let size := g.nodes.size
  let start : Making := ⟨g.nodes, Array.replicate size none, Array.replicate size .null, []⟩
  let make : Maker Value := do
    let root ← Maker.value g.root
    Maker.all size
    pure root
  let (root, s) ← make.run start
  if g.hasAlias then pure ⟨root, s.parts⟩
  else pure ⟨root.expand s.parts, #[]⟩

/-- The document that a text holds. An empty text holds nothing. -/
def read? (text : String) : Except ReadError Document := do
  match ← Graph.ofText? text.toList with
  | none => pure ⟨.null, #[]⟩
  | some g => g.document?

end Yaml

end Conjunctive
