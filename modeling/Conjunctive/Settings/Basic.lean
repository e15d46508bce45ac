import Conjunctive.Settings.Document
import Conjunctive.Text.Split
import Conjunctive.Value.Kind

/-!
# Settings

Settings are a document, whose values are addressed by dotted paths, and the name of the
file they were last read from. A new session starts with settings of its own.
-/

namespace Conjunctive

/-- Settings, and the name of the file they were last read from. -/
structure Settings where
  document : Document
  source : Option String

namespace Settings

/-- A section with the given entries. -/
def ofKeys (es : List (String × Value)) : Value := .map (es.map fun e => (.text e.1, e.2))

/-- The settings of a new session. -/
def defaults : Settings where
  document := ⟨ofKeys [
    ("storage", ofKeys [("data_dir", .text "data"), ("delimiter", .text ","),
      ("relations", .map [])]),
    ("evaluation", ofKeys [("distinct", .bool true), ("show_progress", .bool false)]),
    ("output", ofKeys [("path", .text "output.csv")])], #[]⟩
  source := none

/-- The keys of a dotted path. There is always one at least. -/
def keys (path : String) : List Value :=
  (Text.splitAt '.' path.toList).map fun cs => .text (String.ofList cs)

/-- The setting at a dotted path. -/
def get? (s : Settings) (path : String) : Option Value := s.document.at? (keys path)

/-- The setting at a dotted path, or a given value if there is none. -/
def getD (s : Settings) (path : String) (fallback : Value) : Value := (s.get? path).getD fallback

/-- Set the setting at a dotted path. -/
def set (s : Settings) (path : String) (v : Value) : Settings :=
  { s with document := s.document.put v (keys path) }

/-- Whether answers are without repetitions. -/
def distinct (s : Settings) : Bool := (s.getD "evaluation.distinct" (.bool true)).isTruthy

end Settings

end Conjunctive
