import Conjunctive.Query.Token
import Conjunctive.Text.Line
import Conjunctive.Text.Digit

/-!
# Cutting a text into queries

A text of several queries is cut without parsing it. A query ends at a dot
outside quotes, unless the dot stands between two digits. A comment runs from a
percent or number sign outside quotes to the end of the line. The lines of one
query are stripped and joined by single spaces, and quotes do not reach across
the end of a line. What is left after the last dot is a piece of its own.
-/

namespace Conjunctive

namespace Splitting

/-- Whether a character is there and is a digit. -/
def isDigit? : Option Char → Bool
  | some c => Text.isDigit c
  | none => false

/-- Cut a line at the dots that end queries, dropping a comment. Gives the
pieces that end in such a dot and the piece after them. The arguments carry the
character before, the quote sign of the string at hand, and whether its next
character is escaped. -/
def cutLine (before quote : Option Char) (escaped : Bool) :
    List Char → List (List Char) × List Char
  | [] => ([], [])
  | c :: cs =>
    let keep (quote : Option Char) (escaped : Bool) : List (List Char) × List Char :=
      match cutLine (some c) quote escaped cs with
      | ([], last) => ([], c :: last)
      | (p :: ps, last) => ((c :: p) :: ps, last)
    match quote with
    | some q =>
      if escaped then keep quote false
      else if c = '\\' then keep quote true
      else if c = q then keep none false
      else keep quote false
    | none =>
      if c = Text.apostrophe ∨ c = Text.quotationMark then keep (some c) false
      else if Token.isCommentSign c then ([], [])
      else if c = '.' ∧ ¬ (isDigit? before ∧ isDigit? cs.head?) then
        let (ps, last) := cutLine (some c) none false cs
        ([c] :: ps, last)
      else keep none false

/-- Add a piece of a line to what was gathered of a query. -/
def extend (gathered piece : List Char) : List Char :=
  match Text.strip piece with
  | [] => gathered
  | stripped => if gathered = [] then stripped else gathered ++ ' ' :: stripped

/-- Gather the queries of some lines, after what was gathered of the first. -/
def gather (gathered : List Char) : List (List Char) → List (List Char)
  | [] => if gathered = [] then [] else [gathered]
  | l :: ls =>
    match cutLine none none false l with
    | ([], last) => gather (extend gathered last) ls
    | (p :: ps, last) => extend gathered p :: ps.map (extend []) ++ gather (extend [] last) ls

end Splitting

def splitQueries (text : String) : List String :=
  (Splitting.gather [] (Text.lines text.toList)).map String.ofList

end Conjunctive
