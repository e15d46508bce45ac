import Conjunctive.Session.Basic

/-!
# The command line

Runs a session over the files of the working directory: prints its lines and writes its
report. A session that fails says why on the error stream.
-/

namespace Conjunctive

namespace Session

/-- What is found at a path of the file system. The system tells a directory that is read
like a file by an error of its own, and a name that is too long. -/
def lookAt (path : String) : IO FileState := do
  if path.contains '\x00' then pure .noPath
  else
    try
      pure (.text (← IO.FS.readFile path))
    catch
      | .noFileOrDirectory .. => pure .missing
      | .inappropriateType _ code _ => pure (if code = 21 then .directory else .blocked)
      | .invalidArgument _ code _ => pure (if code = 36 then .tooLong else .blocked)
      | _ => pure .blocked

/-- The wording of a failure that has no other. -/
def failureMessage : Failed → String
  | .load (.names _) => "The relations are not given by name."
  | .load _ => "A relation cannot be loaded."
  | .settings _ => "The settings file cannot be read."
  | .file .missing => "There is no such file."
  | .file .isDirectory => "The file is a directory."
  | .file _ => "The path leads nowhere."
  | .noDirectory path =>
    "Cannot save file into a non-existent directory: " ++ Text.quoted path
  | _ => "The session failed."

/-- How the options are used. -/
def usage : String :=
  "options: [--config FILE] [--queries-file FILE] [--output FILE] [--progress]"

end Session

end Conjunctive

open Conjunctive in
/-- Run a session as the arguments say. -/
def main (args : List String) : IO UInt32 := do
  match Invocation.read args with
  | .help =>
    IO.println Session.usage
    pure 0
  | .refused =>
    IO.eprintln Session.usage
    pure 2
  | .run a =>
    let t ← Session.run Session.lookAt .defaults a
    match t.written with
    | some (path, text) => IO.FS.writeFile path text
    | none => pure ()
    IO.print t.output
    match t.ending with
    | .finished => pure 0
    | .stopped => pure 1
    | .failed e =>
      IO.eprintln (e.message?.getD (Session.failureMessage e))
      pure 1
