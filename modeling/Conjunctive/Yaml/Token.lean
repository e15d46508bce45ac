import Conjunctive.Yaml.Error

/-!
# Tokens of a YAML text

A token is a scalar, a property of a node, or a sign of structure. The structure
that indentation gives is told by tokens too: where a list or a map in block style
starts, and where it ends.
-/

namespace Conjunctive

namespace Yaml

/-- A tag as it is written: a handle, which stands for a beginning, and what follows it. A
tag in full has no handle. -/
structure WrittenTag where
  handle : Option String
  name : String
  deriving DecidableEq

inductive Token where
  /-- A version is told; its first number is given. -/
  | version (major : Nat)
  /-- A handle is told to stand for a beginning of tags. -/
  | handle (name beginning : String)
  | directive
  | documentStart
  | documentEnd
  | blockList
  | blockMap
  | blockEnd
  | flowList
  | flowListEnd
  | flowMap
  | flowMapEnd
  | entry
  | comma
  | key
  | value
  | alias (name : String)
  | anchor (name : String)
  | tag (t : WrittenTag)
  | scalar (isPlain : Bool) (text : String)
  /-- Here the text cannot be read on. -/
  | fault (e : ReadError)
  deriving DecidableEq

end Yaml

end Conjunctive
