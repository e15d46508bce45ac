import Conjunctive.Loading
import Conjunctive.Query.Splitting
import Conjunctive.Report
import Conjunctive.Session.Arguments
import Conjunctive.Settings.Text

/-!
# Sessions

A session reads the settings, loads the relations they name, evaluates a file of
queries and writes the report. It tells what it does line by line. A session ends
early if a relation cannot be loaded, and it fails if the queries cannot be read or the
report cannot be written.

How files are looked at is left open, and nothing is written here: the transcript of a
session says what it prints, what it writes and where, and how it ends.
-/

namespace Conjunctive

namespace Session

/-- Why a session fails. -/
inductive Failed where
  /-- The settings file has no name, but a value of some kind. -/
  | configName (kind : String)
  | settings (e : Settings.ReadFault)
  | load (e : LoadError)
  /-- The file of queries has no name, but a value of some kind. -/
  | queriesName (kind : String)
  | file (e : FileError)
  /-- There is no directory for the report. -/
  | noDirectory (path : String)
  /-- The report cannot be written in the form that its file asks for. -/
  | unsupported
  /-- The name of the report's file is given in bytes. -/
  | targetBytes
  /-- The name of the report's file is no name, but a value of some kind. -/
  | target (kind : String)
  /-- The report cannot be made or written. -/
  | report (e : TableError)
  | query (e : Failure)

namespace Failed

/-- The wording of an error, except for those that are told by their kind alone. -/
def message? : Failed → Option String
  | configName kind =>
    some ("stat: path should be string, bytes, os.PathLike or integer, not " ++ kind)
  | settings e => e.message?
  | load e => e.message?
  | queriesName kind => some ("expected str, bytes or os.PathLike object, not " ++ kind)
  | file .noPath => some "embedded null byte"
  | file _ | noDirectory _ | unsupported => none
  | targetBytes => some "argument 1 must have a \"write\" method"
  | target kind => some ("Invalid file path or buffer object type: <class '" ++ kind ++ "'>")
  | report e => e.message?
  | query e => e.message?

end Failed

/-- How a session ends. -/
inductive Ending where
  | finished
  /-- A relation could not be loaded. -/
  | stopped
  | failed (e : Failed)

/-- What a session does. -/
structure Transcript where
  lines : List String
  /-- The file that is written, and its text. -/
  written : Option (String × String)
  ending : Ending

/-- The lines as they are printed. -/
def Transcript.output (t : Transcript) : String := String.join (t.lines.map (· ++ "\n"))

/-! ### What is printed -/

/-- A line of a table. -/
def indented (line : String) : String := "    " ++ line

/-- The lines of a table: the names of its columns, a rule, and its rows. -/
def table (b : Batch) : List String :=
  let names := b.head.vars
  let rule (n : String) := String.ofList (List.replicate n.length '-')
  indented (String.intercalate " | " names)
    :: indented (String.intercalate "-+-" (names.map rule))
    :: b.rows.map fun r => indented (String.intercalate " | " (r.map Value.display))

/-- The lines that show an answer. -/
def answerLines : Option Answer → List String
  | none => [indented "[no results - query was rejected]"]
  | some (.truth b) => [indented (Value.bool b).display]
  | some (.batch b) =>
    if b.isEmpty then [indented "[no results - empty result]"] else table b

/-- How a rejection is named and worded. Of a text that is no query it is not told
where it goes wrong. -/
def rejection : Failure → String
  | .query (.parse e) =>
    "QueryParseError: " ++ match e with
      | .unexpectedCharacters _ _ _ | .unexpectedEnd _ | .overlongInteger _ =>
        "Cannot parse query text: ..."
      | e => e.message?.getD ""
  | .query e =>
    let name := match e with
      | .unknownRelation _ => "UnknownRelationError"
      | .arityMismatch _ _ _ => "ArityMismatchError"
      | _ => "InvalidHeadError"
    name ++ ": " ++ e.message?.getD ""
  | .evaluation e => "CyclicQueryError: " ++ e.message?.getD ""

/-- The lines that show an outcome. -/
def outcomeLines (o : Outcome) : List String :=
  let rejected := o.verdict.failure?.map fun e => indented ("[rejected] " ++ rejection e)
  ["", "-- Query " ++ toString o.id ++ ": " ++ o.text] ++ rejected.toList
    ++ answerLines o.verdict.answer?

/-! ### The file of the report -/

/-- What keeps the report from being written. -/
def obstacle? {m : Type → Type} [Monad m] (look : String → m FileState) (path : String) :
    m (Option Failed) := do
  let directory := directoryOf (plainPath path)
  match ← look directory with
  | .directory =>
    if Archive.ofPath? path = some .zstandard then pure (some .unsupported)
    else pure ((← writeError? look path).map .file)
  | _ => pure (some (.noDirectory directory))

/-- The name of the report's file: the one in the arguments, or the one in the
settings. -/
def target (s : Settings) (a : Arguments) : Value :=
  if a.output.isTruthy then a.output else s.getD "output.path" (.text "output.csv")

/-- The name of a kind with the module that it comes from. -/
def fullKind : Value → String
  | .time t _ => "datetime." ++ t.kind
  | v => v.kind

/-- Write the report and end the session. Under no name, nothing is written. The table is
made before its file is looked at, and written afterwards. -/
def close {m : Type → Type} [Monad m] (look : String → m FileState) (s : Settings)
    (a : Arguments) (outcomes : List Outcome) (lines : List String) : m Transcript := do
  let finished (name : String) (written : Option (String × String)) : Transcript :=
    ⟨lines ++ ["", "Results written to " ++ name], written, .finished⟩
  let failed (e : Failed) : Transcript := ⟨lines, none, .failed e⟩
  match Report.text? .usual outcomes, target s a with
  | .error .tooLarge, _ => pure (failed (.report .tooLarge))
  | report, .text path =>
    match ← obstacle? look path, report with
    | some e, _ => pure (failed e)
    | none, .error e => pure (failed (.report e))
    | none, .ok text => pure (finished path (some (path, text)))
  | .error e, .null => pure (failed (.report e))
  | .ok _, .null => pure (finished Value.null.display none)
  | _, .bytes _ => pure (failed .targetBytes)
  | _, v => pure (failed (.target (fullKind v)))

/-! ### The course of a session -/

/-- The settings after the settings file was looked at, what is told of it, and what went
wrong. -/
def configure (s : Settings) (file : String) (state : FileState) :
    Settings × String × Option Settings.ReadFault :=
  let found := "Loading configuration from " ++ file
  match state with
  | .text t => let (s, fault) := s.load file (some t); (s, found, fault)
  | .directory => (s, found, none)
  | _ => (s, "Configuration file " ++ file ++ " not found. Using default configuration.", none)

/-- The course of a session from the file of queries on. -/
def answer {m : Type → Type} [Monad m] (look : String → m FileState) (s : Settings)
    (a : Arguments) (c : Catalogue) (lines : List String) : m Transcript := do
  match a.queries with
  | .text file =>
    match (← look file).text? with
    | .error e => pure ⟨lines, none, .failed (.file e)⟩
    | .ok text =>
      let texts := splitQueries text
      let counted := "Evaluating " ++ toString texts.length ++ " queries from " ++ file
      let lines := lines ++ [counted]
      match c.evaluateAll s.distinct texts with
      | .error e => pure ⟨lines, none, .failed (.query e)⟩
      | .ok outcomes => close look s a outcomes (lines ++ outcomes.flatMap outcomeLines)
  | v => pure ⟨lines, none, .failed (.queriesName v.kind)⟩

/-- Run a session that starts with some settings. -/
def run {m : Type → Type} [Monad m] (look : String → m FileState) (s : Settings)
    (a : Arguments) : m Transcript := do
  let started := ["[cq_eval] Starting conjunctive query evaluation."]
  match a.config with
  | .text file =>
    let (s, configured, fault) := configure s file (← look file)
    let lines := started ++ [configured]
    match fault with
    | some e => pure ⟨lines, none, .failed (.settings e)⟩
    | none =>
      let s := if a.showsProgress then s.set "evaluation.show_progress" (.bool true) else s
      let (c, loaded) ← Catalogue.empty.load look s
      match loaded with
      | .error e =>
        if e.isExpected then
          let told := "Error loading relations: " ++ e.message?.getD ""
          pure ⟨lines ++ [told], none, .stopped⟩
        else pure ⟨lines, none, .failed (.load e)⟩
      | .ok _ =>
        answer look s a c (lines ++ ["Loaded relations: " ++ Value.quotedList c.names])
  | v => pure ⟨started, none, .failed (.configName v.kind)⟩

end Session

end Conjunctive
