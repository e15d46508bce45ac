import Conjunctive.Value.Entries

/-!
# Sections

Settings are nested sections, addressed by paths of keys: a section is a map, and a path
goes from section to section. `at?` reads the value at a path and `put` sets it. To make
room on its way, `put` replaces what is not a section by a new one; it changes nothing
beside the path.

`overlay` lays one section over another. Where both have a section under a key, the
sections are laid over each other in the same way; anywhere else what lies above hides what
lies below.
-/

namespace Conjunctive

namespace Value

/-- The value at a path. -/
def at? : Value → List Value → Option Value
  | v, [] => some v
  | v, k :: ks => (lookup k v.entries).bind fun e => e.at? ks

/-- Set the value at a path. -/
def put (d : Value) (v : Value) : List Value → Value
  | [] => v
  | k :: ks => .map (insert k (((lookup k d.entries).getD null).put v ks) d.entries)

mutual

/-- What lies above a value, or above nothing, laid over it. -/
def above (below : Option Value) : Value → Value
  | map es => match below with
    | some (map fs) => map (overlay fs es)
    | _ => map es
  | v => v

/-- The entries of a section with those of another laid over them. -/
def overlay (below : List (Value × Value)) : List (Value × Value) → List (Value × Value)
  | [] => below
  | (k, v) :: es => overlay (insert k (above (lookup k below) v) below) es

end

end Value

end Conjunctive
