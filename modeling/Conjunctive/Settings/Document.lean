import Conjunctive.Settings.Section
import Conjunctive.Value.Parts

/-!
# Sections with shared parts

A settings file may let one section stand in several places. What is set in one of them
shows in all: a path is followed to the last part it enters, and the value is set there.
A document without parts is a plain section, and nothing here differs from what holds of
sections.

Laying a document over another may go on for ever if both hold themselves; then it is
given up after a depth, and what was done until then stays.
-/

namespace Conjunctive

/-- A value together with its parts. -/
structure Document where
  root : Value
  parts : Parts

/-- An address in a document: keys followed from the root or from a part. -/
structure Address where
  home : Option Nat
  keys : List Value

namespace Document

/-- The value that the keys of an address start from. -/
def home (d : Document) : Option Nat → Value
  | none => d.root
  | some n => d.parts.getD n .null

/-- The value at a path of keys, if there is one. Parts stand in their places. -/
def at? (d : Document) (keys : List Value) : Option Value :=
  (go d.root keys).map (Value.expand d.parts)
where
  /-- Follow keys from a value on. -/
  go (v : Value) : List Value → Option Value
    | [] => some v
    | k :: ks => (Value.lookup k (v.resolve d.parts).entries).bind fun e => go e ks

/-- Change the value that the keys of an address start from. -/
def change (d : Document) (home : Option Nat) (f : Value → Value) : Document :=
  match home with
  | none => { d with root := f d.root }
  | some n => { d with parts := d.parts.modify n f }

/-- The address that a path leads to: in the last section that stands in several places, or
else in the root. -/
def locate (d : Document) (v : Value) (address : Address) : List Value → Address
  | [] | [_] => address
  | k :: ks =>
    match Value.lookup k v.entries with
    | some (.part n) =>
      let part := d.parts.getD n .null
      if part.isMap then d.locate part ⟨some n, ks⟩ ks else address
    | some e => d.locate e address ks
    | none => address

/-- Set the value at a path. -/
def put (d : Document) (v : Value) (keys : List Value) : Document :=
  let address := d.locate d.root ⟨none, keys⟩ keys
  d.change address.home (·.put v address.keys)

/-! ### Overlay -/

/-- How deep a document is laid over another. -/
def overlayDepth : Nat := 1000

/-- Lay entries over the section at an address, to a depth. Gives the document, and whether
the entries were all laid over it. -/
def overlayAt (depth : Nat) (d : Document) (address : Address) :
    List (Value × Value) → Document × Bool
  | [] => (d, true)
  | (k, v) :: es =>
    let section? := ((d.home address.home).at? address.keys).getD .null
    let current := Value.lookup k section?.entries
    let below := (current.getD .null).resolve d.parts
    let above := v.resolve d.parts
    if below.isMap && above.isMap then
      match depth with
      | 0 => (d, false)
      | depth + 1 =>
        let inner : Address := match current with
          | some (.part n) => ⟨some n, []⟩
          | _ => ⟨address.home, address.keys ++ [k]⟩
        match d.overlayAt depth inner above.entries with
        | (d, true) => d.overlayAt (depth + 1) address es
        | (d, false) => (d, false)
    else
      let d := d.change address.home (·.put v (address.keys ++ [k]))
      d.overlayAt depth address es
termination_by es => (depth, es.length)

/-- A document whose parts come after those of another. -/
def behind (d : Document) (above : Document) : Document × Value :=
  let n := d.parts.size
  ({ d with parts := d.parts ++ above.parts.map (Value.shift n) }, above.root.shift n)

/-- Lay a document over another. Gives the document, and whether all of it was laid over
the other. -/
def overlay (d above : Document) : Document × Bool :=
  if d.parts.isEmpty && above.parts.isEmpty then
    ({ d with root := .map (Value.overlay d.root.entries above.root.entries) }, true)
  else
    let (d, root) := d.behind above
    d.overlayAt overlayDepth ⟨none, []⟩ (root.resolve d.parts).entries

end Document

end Conjunctive
