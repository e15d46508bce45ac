import Conjunctive.Catalogue
import Conjunctive.Text.Blank

/-!
# Outcomes of a batch of queries

The texts of a batch are evaluated one by one. A text that is no query over the
relations at hand, or whose query is cyclic, is recorded as rejected, and the
batch goes on. Any other failure would end the batch; none arises for a query
that was resolved from a text.
-/

namespace Conjunctive

/-- What became of one text of a batch. -/
inductive Verdict where
  /-- The query was acyclic and has an answer. -/
  | answered (q : Query) (a : Answer)
  /-- The query is cyclic; the vertices of the hyperedges left are given. -/
  | cyclic (q : Query) (left : List (List String))
  /-- The text is no query over the relations at hand. -/
  | rejected (e : QueryError)

namespace Verdict

/-- The query, if the text was resolved. -/
def query? : Verdict → Option Query
  | answered q _ => some q
  | cyclic q _ => some q
  | rejected _ => none

/-- Whether the query is acyclic, if that was found out. -/
def isAcyclic? : Verdict → Option Bool
  | answered _ _ => some true
  | cyclic _ _ => some false
  | rejected _ => none

/-- The answer, if there is one. -/
def answer? : Verdict → Option Answer
  | answered _ a => some a
  | _ => none

/-- Why there is no answer. -/
def failure? : Verdict → Option Failure
  | answered _ _ => none
  | cyclic q left => some (.evaluation (.cyclic q left))
  | rejected e => some (.query e)

end Verdict

/-- The number of a text in its batch, counted from 1, the text without the
blanks around it, and what became of it. -/
structure Outcome where
  id : Nat
  text : String
  verdict : Verdict

namespace Catalogue

/-- What becomes of a text. A constant of an unknown kind is no ground for a
rejection, but a failure. -/
def judge (c : Catalogue) (distinct : Bool) (text : String) : Except Failure Verdict :=
  match c.parse text with
  | .error (.notAConstant kind) => .error (.query (.notAConstant kind))
  | .error e => .ok (.rejected e)
  | .ok q =>
    match q.evaluate distinct with
    | .ok a => .ok (.answered q a)
    | .error (.cyclic q left) => .ok (.cyclic q left)
    | .error e => .error (.evaluation e)

/-- The outcomes of texts, numbered from a given number on. -/
def evaluateFrom (c : Catalogue) (distinct : Bool) (id : Nat) :
    List String → Except Failure (List Outcome)
  | [] => pure []
  | text :: texts => do
    let verdict ← c.judge distinct text
    let stripped := String.ofList (Text.strip text.toList)
    let rest ← evaluateFrom c distinct (id + 1) texts
    pure (⟨id, stripped, verdict⟩ :: rest)

/-- The outcomes of a batch of texts. -/
def evaluateAll (c : Catalogue) (distinct : Bool) (texts : List String) :
    Except Failure (List Outcome) :=
  c.evaluateFrom distinct 1 texts

end Catalogue

end Conjunctive
