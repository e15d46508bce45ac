import Conjunctive.Query.Reading

/-!
# Parsing query texts

`QueryForm.parse` reads a text of one or more queries, `QueryForm.parseOne` a
text of exactly one. A text is refused at the first token that cannot follow,
or where no token fits, or because it ends inside a query; and if all tokens
fit, for the first integer with too many digits.

An error inside the text is reported at a place. The report is held back as
long as ignored text is pending that began at or before that place: the place
moves on to the first character where every white space or comment that began
so far has ended, and there nothing in particular is expected any more. A
comment sign inside a string begins such a comment too.
-/

namespace Conjunctive

/-- Why a text is not a text of queries. -/
inductive ParseError where
  /-- No expected token stands at a line and column, both counted from 1. -/
  | unexpectedCharacters (line column : Nat) (expected : List Terminal)
  /-- The text ends where one of some tokens is expected. -/
  | unexpectedEnd (expected : List Terminal)
  /-- An integer has too many digits. -/
  | overlongInteger (digits : Nat)
  /-- The text does not hold exactly one query. -/
  | queryCount (found : Nat)
  /-- A form holds a term of no known kind. -/
  | unknownTermKind (kind : String)
  deriving DecidableEq

namespace ParseError

/-- The wording of an error, except for those that are told by their parts. -/
def message? : ParseError → Option String
  | unexpectedCharacters _ _ _ => none
  | unexpectedEnd _ => none
  | overlongInteger digits =>
    some <| "Cannot parse query text: Error trying to process rule \"term_list\":\n\n"
      ++ Literal.overlongMessage digits
  | queryCount found => some ("Expected exactly one query, found " ++ toString found ++ ".")
  | unknownTermKind kind => some ("Unexpected term type in query AST: " ++ kind)

end ParseError

/-! ### Where an error is reported -/

namespace Token

/-- The length of the ignored text that begins with the first character. -/
def ignoredLength : List Char → Nat
  | [] => 0
  | c :: cs =>
    if isSpace c then ((c :: cs).takeWhile isSpace).length
    else if isCommentSign c then ((c :: cs).takeWhile (· != '\n')).length
    else 0

/-- The first index from `place` on at which all ignored text that began so far
has ended; `index` characters were passed, with ignored text up to `pending`. -/
def settleFrom (place index pending : Nat) : List Char → Nat
  | [] => index
  | c :: cs =>
    let pending := max pending (index + ignoredLength (c :: cs))
    if place ≤ index ∧ pending ≤ index + 1 then index
    else settleFrom place (index + 1) pending cs

/-- The index at which an error at an index of the text is reported. -/
def settle (text : List Char) (place : Nat) : Nat := settleFrom place 0 0 text

end Token

namespace ParseError

/-- The error for a text of which no expected token stands before the last
`left` characters. -/
def located (text : List Char) (left : Nat) (expected : List Terminal) : ParseError :=
  let place := text.length - left
  let reported := Token.settle text place
  let before := text.take reported
  .unexpectedCharacters (before.count '\n' + 1)
    ((before.reverse.takeWhile (· != '\n')).length + 1)
    (if reported = place then expected else [])

end ParseError

/-! ### Parsing -/

namespace QueryForm

/-- Read a text of one or more queries. -/
def parse (text : String) : Except ParseError (List (QueryForm Term)) :=
  let cs := text.toList
  let scanned := Token.scan cs
  let (reading, left) := Reading.initial.run scanned.tokens
  let expected := reading.stage.expected
  match left, scanned.stop with
  | (_, n) :: _, _ => .error (.located cs n expected)
  | [], c :: stop => .error (.located cs (c :: stop).length expected)
  | [], [] =>
    if reading.isComplete then
      match scanned.tokens.findSome? fun t => t.1.overlong? with
      | some digits => .error (.overlongInteger digits)
      | none => .ok reading.queries
    else .error (.unexpectedEnd expected)

/-- Read a text of exactly one query. -/
def parseOne (text : String) : Except ParseError (QueryForm Term) :=
  match parse text with
  | .error e => .error e
  | .ok [q] => .ok q
  | .ok qs => .error (.queryCount qs.length)

end QueryForm

end Conjunctive
