import Conjunctive.Catalogue
import Conjunctive.Relation.Archive
import Conjunctive.Relation.Delimiter
import Conjunctive.Settings.Files

/-!
# Loading relations from files

The settings name a file for each of some relations. The files are read one after
the other, and the relations go into a catalogue; the first file that cannot be read
ends the loading, and the relations before it stay. A relation whose name counts as false
is named after its file.
-/

namespace Conjunctive

/-- Why the relations that the settings name cannot be loaded. -/
inductive LoadError where
  | names (e : FileNameError)
  | delimiter (e : DelimiterError)
  | file (path : String) (e : FileError)
  | archive (e : ArchiveError)
  | delimited (e : DelimitedError)

namespace LoadError

/-- The wording of an error, except for those that are told by their kind alone. -/
def message? : LoadError → Option String
  | names e => e.message?
  | delimiter e => e.message?
  | file path e => some (e.message path)
  | archive e => e.message?
  | delimited e => some e.message

/-- Whether a session goes on to tell of an error, in place of failing by it. -/
def isExpected : LoadError → Bool
  | names _ => false
  | delimiter e =>
    match e with
    | .lineEnd _ | .notAscii | .pattern | .absent => true
    | .emptyText | .notText _ | .collection => false
  | file _ _ => true
  | archive e =>
    match e with
    | .notGzip _ | .notBzip => true
    | .notTar | .notZip | .notXz | .truncated | .unsupported => false
  | delimited _ => true

end LoadError

/-- The delimiter of relation files. -/
def Settings.delimiter (s : Settings) : Value := s.getD "storage.delimiter" (.text ",")

namespace Catalogue

/-- Add the relation that a delimited text holds, under a name. If the name counts as false,
another is shown for it. -/
def addText (c : Catalogue) (name : Value) (fallback : String) (delimiter : Char)
    (text : String) : Except DelimitedError Catalogue := do
  let shown := if name.isTruthy then name.display else fallback
  let r ← Relation.ofDelimited? shown delimiter text
  pure (c.insert name r)

/-- The text of a relation's file. -/
def fileText {m : Type → Type} [Monad m] (look : String → m FileState) (path : String) :
    m (Except LoadError String) := do
  match Archive.ofPath? path with
  | some .zstandard => pure (.error (.archive .unsupported))
  | archive =>
    match (← look path).text? with
    | .error e => pure (.error (.file path e))
    | .ok text =>
      match archive.bind (·.fault? text) with
      | some e => pure (.error (.archive e))
      | none => pure (.ok text)

/-- Load relations from files. Gives the catalogue, and what ended the loading early. -/
def loadFiles {m : Type → Type} [Monad m] (look : String → m FileState) (delimiter : Value)
    (c : Catalogue) : List (Value × Option String) → m (Catalogue × Option LoadError)
  | [] => pure (c, none)
  | (_, none) :: _ => pure (c, some (.names .bytes))
  | (name, some path) :: files => do
    match delimiter? delimiter with
    | .error e => pure (c, some (.delimiter e))
    | .ok d =>
      match ← fileText look (plainPath path) with
      | .error e => pure (c, some e)
      | .ok text =>
        match c.addText name (fileStem path) d text with
        | .error e => pure (c, some (.delimited e))
        | .ok c => c.loadFiles look delimiter files

/-- Load the relations that the settings name. Gives the catalogue, and what ended the
loading early, or the names of the relations loaded. -/
def load {m : Type → Type} [Monad m] (look : String → m FileState) (s : Settings)
    (c : Catalogue) : m (Catalogue × Except LoadError (List Value)) := do
  match s.relationFiles with
  | .error e => pure (c, .error (.names e))
  | .ok files => do
    let (c, failed) ← c.loadFiles look s.delimiter files
    match failed with
    | some e => pure (c, .error e)
    | none => pure (c, .ok (files.map Prod.fst))

end Catalogue

end Conjunctive
