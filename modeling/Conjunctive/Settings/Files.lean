import Conjunctive.File
import Conjunctive.Settings.Basic

/-!
# Relation files

The settings name a directory and, for each relation, a file in it. The names come
from values of any kind, so a directory or a file may turn out to be no name. Names may be
given as bytes; a path of bytes is no path of a relation's file, though.
-/

namespace Conjunctive

/-- What keeps the settings from naming relation files. -/
inductive FileNameError where
  /-- The relations are given, but not by name. -/
  | noNames
  /-- The directory is of a kind that names nothing. -/
  | directory (kind : String)
  /-- A file is of a kind that names nothing. -/
  | file (kind : String)
  /-- Of the directory and a file, one is a text and one is bytes. -/
  | mixed
  /-- A path is given in bytes. -/
  | bytes
  deriving DecidableEq

namespace FileNameError

/-- The wording of an error, except for one that is told by its kind alone. -/
def message? : FileNameError → Option String
  | noNames => none
  | directory kind => some ("expected str, bytes or os.PathLike object, not " ++ kind)
  | file kind =>
    some ("join() argument must be str, bytes, or os.PathLike object, not '" ++ kind ++ "'")
  | mixed => some "Can't mix strings and bytes in path components"
  | bytes =>
    some <| "argument should be a str object or an os.PathLike object returning str, not "
      ++ "<class 'bytes'>"

end FileNameError

namespace Settings

/-- The path of a relation's file, the directory and the file given as values; there is
none for a path of bytes. -/
def filePath? (directory file : Value) : Except FileNameError (Option String) :=
  match directory, file with
  | .text d, .text f => .ok (some (filePath d f))
  | .bytes _, .bytes _ => .ok none
  | .text _, .bytes _ | .bytes _, .text _ => .error .mixed
  | .text _, f | .bytes _, f => .error (.file f.kind)
  | d, _ => .error (.directory d.kind)

/-- The names of the relations and the paths of their files. -/
def relationFiles (s : Settings) : Except FileNameError (List (Value × Option String)) :=
  let directory := s.getD "storage.data_dir" (.text "data")
  let relations := s.getD "storage.relations" .null
  if !relations.isTruthy then .ok []
  else if !relations.isMap then .error .noNames
  else relations.entries.mapM fun e => do
    let path ← filePath? directory e.2
    pure (e.1, path)

end Settings

end Conjunctive
