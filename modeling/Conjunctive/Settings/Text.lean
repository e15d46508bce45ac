import Conjunctive.Settings.Basic
import Conjunctive.Text.Line
import Conjunctive.Yaml.Read
import Conjunctive.Yaml.Write

/-!
# Settings files

Settings are kept in YAML files. A file is laid over the settings at hand; if there is
no such file, or if it is refused or holds no section, they stay as they are. They are
written back to the file they were last read from, unless another is named.
-/

namespace Conjunctive

namespace Settings

/-- What goes wrong when a file is read. -/
inductive ReadFault where
  | text (e : Yaml.ReadError)
  /-- Both the settings and the file hold themselves, and no end is reached. -/
  | endless

namespace ReadFault

/-- The wording of a fault, except for those that are told by their kind alone. -/
def message? : ReadFault → Option String
  | text e => e.message?
  | endless => some "maximum recursion depth exceeded while calling a Python object"

end ReadFault

/-- Lay a document that was read from a file over the settings. -/
def read (s : Settings) (file : String) (d : Document) : Settings × Option ReadFault :=
  match s.document.overlay d with
  | (document, true) => (⟨document, some file⟩, none)
  | (document, false) => ({ s with document }, some .endless)

/-- Read a file, given its text if there is such a file. Gives the settings, and what went
wrong unless the file was only refused. -/
def load (s : Settings) (file : String) (text : Option String) : Settings × Option ReadFault :=
  match text with
  | none => (s, none)
  | some text =>
    match Yaml.read? (String.ofList (Text.newlines text.toList)) with
    | .error .refused => (s, none)
    | .error e => (s, some (.text e))
    | .ok d => if (d.root.resolve d.parts).isMap then s.read file d else (s, none)

/-- The file that settings are written to when some file is named or none is. An empty
name names no file. -/
def target? (s : Settings) (file : Option String) : Option String :=
  (file.filter (· != "")).or (s.source.filter (· != ""))

/-- The text of a file with the settings. -/
def text? (s : Settings) : Except Yaml.WriteError String := Yaml.write? s.document

end Settings

end Conjunctive
