import Conjunctive.Query.Resolve
import Conjunctive.Evaluation.Basic
import Conjunctive.Relation.Delimited

/-!
# Catalogues of relations

A catalogue holds relations under names, in the order in which the names were
first used. Query texts are resolved against it and evaluated. A name is a text,
but settings may give a number or a truth value for one; a relation under such a
name is listed, and no query finds it.
-/

namespace Conjunctive

/-- Why a query text has no answer. -/
inductive Failure where
  | query (e : QueryError)
  | evaluation (e : EvaluationError)

namespace Failure

/-- The wording of a failure, except for those that are told by their parts. -/
def message? : Failure → Option String
  | query e => e.message?
  | evaluation e => e.message?

end Failure

/-- Relations under names. -/
structure Catalogue where
  relations : List (Value × Relation)

namespace Catalogue

/-- The catalogue without relations. -/
def empty : Catalogue := ⟨[]⟩

/-- The relation under a name of any kind. -/
def lookup? (c : Catalogue) (name : Value) : Option Relation :=
  (c.relations.find? fun p => p.1.same name).map Prod.snd

/-- The relation under a name. -/
def find? (c : Catalogue) (name : String) : Option Relation := c.lookup? (.text name)

/-- The names in the order of first use. -/
def names (c : Catalogue) : List Value := c.relations.map Prod.fst

/-- Put a relation under a name, in place of the relation that was there. -/
def insert (c : Catalogue) (name : Value) (r : Relation) : Catalogue :=
  if (c.lookup? name).isSome then
    ⟨c.relations.map fun p => if p.1.same name then (p.1, r) else p⟩
  else ⟨c.relations ++ [(name, r)]⟩

/-- Add a relation under a name, which it takes unless it has one. -/
def add (c : Catalogue) (name : String) (r : Relation) : Catalogue :=
  c.insert (.text name) (r.named name)

/-- Resolve a form over the relations of a catalogue. -/
def resolve {τ : Type} (c : Catalogue) (read : τ → Except QueryError Term) (q : QueryForm τ) :
    Except QueryError Query :=
  q.resolve c.find? read

/-- The query that a text holds. -/
def parse (c : Catalogue) (text : String) : Except QueryError Query := do
  let form ← (QueryForm.parseOne text).mapError QueryError.parse
  c.resolve .ok form

/-- The queries that a text holds. -/
def parseAll (c : Catalogue) (text : String) : Except QueryError (List Query) := do
  let forms ← (QueryForm.parse text).mapError QueryError.parse
  forms.mapM (c.resolve .ok)

/-- The answer to the query that a text holds. -/
def answer (c : Catalogue) (distinct : Bool) (text : String) : Except Failure Answer := do
  let q ← (c.parse text).mapError Failure.query
  (q.evaluate distinct).mapError Failure.evaluation

end Catalogue

end Conjunctive
