import Conjunctive.Value.Kind
import Conjunctive.Value.Text

/-!
# Delimiters

Fields are separated by a single ASCII character that does not end lines. Settings may hold
any value in place of a delimiter.
-/

namespace Conjunctive

/-- Why a value is no delimiter. -/
inductive DelimiterError where
  /-- It is a character that ends lines. -/
  | lineEnd (c : Char)
  /-- It is a character beyond ASCII. -/
  | notAscii
  /-- It is longer than a character. -/
  | pattern
  /-- There is none. -/
  | absent
  | emptyText
  /-- It is of a kind without a length. -/
  | notText (kind : String)
  | collection
  deriving DecidableEq

namespace DelimiterError

/-- The wording for a delimiter that would take another reader. -/
def otherReader (reason : String) : String :=
  "Falling back to the 'python' engine because " ++ reason
    ++ ", but this causes 'float_precision' to be ignored as it is not supported by the "
    ++ "'python' engine."

/-- The wording of an error, except for those that are told by their kind alone. -/
def message? : DelimiterError → Option String
  | lineEnd c =>
    let shown := Text.quoted (String.ofList [c])
    some <| "Specified " ++ shown ++ " as separator or delimiter, but a line terminator "
      ++ "cannot be used as a separator. To parse " ++ shown ++ " as a separator, pass a "
      ++ "lineterminator other than " ++ shown ++ " (engine='c' only)."
  | notAscii =>
    some <| otherReader <| "the separator encoded in utf-8 is > 1 char long, and the 'c' engine "
      ++ "does not support such separators"
  | pattern =>
    some <| otherReader <| "the 'c' engine does not support regex separators (separators > 1 "
      ++ "char and different from '\\s+' are interpreted as regex)"
  | absent =>
    some <| otherReader "the 'c' engine does not support sep=None with delim_whitespace=False"
  | emptyText => some "ord() expected a character, but string of length 0 found"
  | notText kind => some ("object of type '" ++ kind ++ "' has no len()")
  | collection => none

end DelimiterError

/-- The number of items of a collection. -/
def Value.length? : Value → Option Nat
  | .bytes bs => some bs.length
  | .list items | .tuple items | .set items => some items.length
  | .map entries => some entries.length
  | _ => none

def delimiter? : Value → Except DelimiterError Char
  | .text s =>
    match s.toList with
    | [] => .error .emptyText
    | [c] =>
      if c = '\n' ∨ c = '\r' then .error (.lineEnd c)
      else if c.toNat < 0x80 then .ok c
      else .error .notAscii
    | _ => .error .pattern
  | .null => .error .absent
  | v =>
    match v.length? with
    | some n => .error (if n ≤ 1 then .collection else .pattern)
    | none => .error (.notText v.kind)

end Conjunctive
