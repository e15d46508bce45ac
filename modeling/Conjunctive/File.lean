import Conjunctive.Text.Quoted
import Conjunctive.Text.Split

/-!
# Files

What is found at a path, and what keeps a file from being opened. How paths are looked
at is left open: `writeError?` works over any monad, as do all functions of the library
that look at files. The names in a path are parted by slashes.
-/

namespace Conjunctive

/-- What is found at a path. -/
inductive FileState where
  | text (s : String)
  | directory
  | missing
  /-- The path leads through something that is no directory. -/
  | blocked
  /-- A name in the path is too long. -/
  | tooLong
  /-- The path holds a null character, and so it is no path. -/
  | noPath

/-- Why a file cannot be opened. -/
inductive FileError where
  | missing
  | isDirectory
  | blocked
  | tooLong
  | noPath
  deriving DecidableEq

namespace FileError

/-- The wording of an error about a path. -/
def message (path : String) : FileError → String
  | missing => "[Errno 2] No such file or directory: " ++ Text.quoted path
  | isDirectory => "[Errno 21] Is a directory: " ++ Text.quoted path
  | blocked => "[Errno 20] Not a directory: " ++ Text.quoted path
  | tooLong => "[Errno 36] File name too long: " ++ Text.quoted path
  | noPath => "embedded null byte"

end FileError

/-- The text at a path. -/
def FileState.text? : FileState → Except FileError String
  | text s => .ok s
  | directory => .error .isDirectory
  | missing => .error .missing
  | blocked => .error .blocked
  | tooLong => .error .tooLong
  | noPath => .error .noPath

/-! ### Paths -/

/-- The path of a file in a directory. A file name that starts at the root of the file
system stands for itself. -/
def filePath (directory file : String) : String :=
  if file.toList.head? = some '/' then file
  else if directory.isEmpty || directory.toList.getLast? = some '/' then directory ++ file
  else directory ++ "/" ++ file

/-- The slashes that a path starts with, as far as they matter: two are not the same as
one, but three are. -/
def leadingSlashes (path : String) : String :=
  match (path.toList.takeWhile (· == '/')).length with
  | 0 => ""
  | 2 => "//"
  | _ => "/"

/-- The names in a path, without those that lead nowhere. -/
def pathNames (path : String) : List String :=
  ((Text.splitAt '/' path.toList).map String.ofList).filter fun n => n != "" && n != "."

/-- A path without needless slashes and names. -/
def plainPath (path : String) : String :=
  let plain := leadingSlashes path ++ String.intercalate "/" (pathNames path)
  if plain.isEmpty then "." else plain

/-- The name of the file at a path, without the last of its endings. -/
def fileStem (path : String) : String :=
  let name := ((pathNames path).getLastD "").toList
  let stem := (name.reverse.dropWhile (· != '.')).drop 1
  if stem.isEmpty || name.getLast? = some '.' then String.ofList name
  else String.ofList stem.reverse

/-- The directory that a file is in. -/
def directoryOf (path : String) : String :=
  let names := path.toList.reverse.dropWhile (· == '/')
  match (names.dropWhile (· != '/')).dropWhile (· == '/') with
  | [] => if path.startsWith "/" then "/" else "."
  | above => String.ofList above.reverse

/-- Whether a path is one of a directory by its form. -/
def isDirectoryPath (path : String) : Bool :=
  let name := (Text.splitAt '/' path.toList).getLastD []
  name == [] || name == ['.'] || name == ['.', '.']

/-! ### Writing -/

/-- What keeps a file from being opened for writing. -/
def writeError? {m : Type → Type} [Monad m] (look : String → m FileState) (path : String) :
    m (Option FileError) := do
  if path.contains '\x00' then pure (some .noPath)
  else if path.isEmpty then pure (some .missing)
  else
    match ← look (directoryOf path) with
    | .directory =>
      if isDirectoryPath path then pure (some .isDirectory)
      else
        match (← look path).text? with
        | .ok _ | .error .missing => pure none
        | .error e => pure (some e)
    | .missing => pure (some .missing)
    | .tooLong => pure (some .tooLong)
    | .noPath => pure (some .noPath)
    | .text _ | .blocked => pure (some .blocked)

end Conjunctive
