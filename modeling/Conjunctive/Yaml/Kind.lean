/-!
# Kinds of YAML nodes

A tag names the kind of a node. The kinds known here have tags with one beginning in
common, for which two exclamation marks stand unless a document says otherwise.
-/

namespace Conjunctive

namespace Yaml

/-- The kinds that a tag can name. -/
inductive Kind where
  | null
  | bool
  | int
  | float
  | binary
  | time
  | text
  | list
  /-- A list of pairs, by two names. -/
  | pairs
  | set
  | map
  /-- The key under which other maps are merged into a map. -/
  | merge
  /-- The sign of a value without a name. -/
  | default
  deriving DecidableEq

/-- The beginning of the tags of all kinds. -/
def commonTag : String := "tag:yaml.org,2002:"

/-- The kinds by the ends of their tags. -/
def kindNames : List (String × Kind) :=
  [("null", .null), ("bool", .bool), ("int", .int), ("float", .float), ("binary", .binary),
    ("timestamp", .time), ("str", .text), ("seq", .list), ("omap", .pairs), ("pairs", .pairs),
    ("set", .set), ("map", .map), ("merge", .merge), ("value", .default)]

/-- The kind that a tag names. -/
def Kind.ofTag? (tag : String) : Option Kind :=
  (kindNames.find? fun p => tag == commonTag ++ p.1).map Prod.snd

end Yaml

end Conjunctive
