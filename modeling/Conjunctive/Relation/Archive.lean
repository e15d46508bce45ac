import Conjunctive.Value.Text

/-!
# Files that look like archives

A file whose name ends like that of an archive is read as one. What holds a plain text is
no archive, so the reading fails; only an empty file may pass for an archive of nothing.
-/

namespace Conjunctive

/-- Kinds of archives. -/
inductive Archive where
  | tar
  | gzip
  | bzip
  | zip
  | xz
  | zstandard
  deriving DecidableEq

/-- Why a text is no archive. -/
inductive ArchiveError where
  | notTar
  /-- The text does not begin like an archive, but with these bytes. -/
  | notGzip (start : List UInt8)
  | notBzip
  | notZip
  | notXz
  /-- The text ends before the archive does. -/
  | truncated
  /-- Archives of this kind cannot be read. -/
  | unsupported
  deriving DecidableEq

namespace ArchiveError

/-- The wording of an error, except for those that are told by their kind alone. -/
def message? : ArchiveError → Option String
  | notGzip start => some ("Not a gzipped file (" ++ Value.quotedBytes start ++ ")")
  | notBzip => some "Invalid data stream"
  | notTar | notZip | notXz | truncated | unsupported => none

end ArchiveError

namespace Archive

/-- How the names of archives end. -/
def endings : List (String × Archive) :=
  [(".tar", tar), (".tar.gz", tar), (".tar.bz2", tar), (".tar.xz", tar), (".gz", gzip),
    (".bz2", bzip), (".zip", zip), (".xz", xz), (".zst", zstandard)]

/-- The kind of archive that a path is one of, by its ending in any mixture of capitals and
small letters. -/
def ofPath? (path : String) : Option Archive :=
  let small := String.ofList (path.toList.map Char.toLower)
  (endings.find? fun e => small.endsWith e.1).map Prod.snd

/-- How an archive of the kind `bzip` may begin. The level of compression comes after three
letters, and what follows it marks a block, or the end, whose mark holds no text to its
end. -/
def bzipStarts : List String :=
  (List.range 9).flatMap fun n =>
    ["BZh" ++ toString (n + 1) ++ "1AY&SY", "BZh" ++ toString (n + 1) ++ "\x17rE8P"]

/-- Whether an archive of the kind `xz` may begin with a byte, in its older form. -/
def mayBeginXz (b : UInt8) : Bool :=
  let n := b.toNat
  let rest := n % 45
  n ≤ 224 && rest % 9 + rest / 9 ≤ 4

/-- What keeps a text from being read as an archive. An empty text may be read. -/
def fault? (a : Archive) (text : String) : Option ArchiveError :=
  let bytes := text.toUTF8.toList
  match a with
  | tar => some .notTar
  | gzip => if bytes.isEmpty then none else some (.notGzip (bytes.take 2))
  | bzip => some (if bzipStarts.any fun s => s.startsWith text then .truncated else .notBzip)
  | zip => some .notZip
  | xz =>
    some (if bytes.head?.all mayBeginXz && decide (bytes.length < 5) then .truncated else .notXz)
  | zstandard => some .unsupported

end Archive

end Conjunctive
