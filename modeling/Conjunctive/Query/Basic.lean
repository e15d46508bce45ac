import Conjunctive.Query.Term
import Conjunctive.Relation.Basic

/-!
# Conjunctive queries

A query has a head, which lists variables under a predicate name, and a body of
atoms. An atom applies a relation name to terms; it may be bound to a relation,
and then it has as many terms as the relation has columns. A query whose head
lists no variables is Boolean.
-/

namespace Conjunctive

/-- A predicate over variables: the head of a query, or the schema of a batch,
where a variable may label several columns. -/
structure Head where
  predicate : String
  vars : List String
  deriving DecidableEq, Inhabited

namespace Head

/-- The predicate of a head that is not given one. -/
def defaultPredicate : String := "Answer"

/-- The head over the given variables under the default predicate. -/
def ofVars (vars : List String) : Head := ⟨defaultPredicate, vars⟩

/-- Two heads side by side, under the predicate of the first. -/
def append (g h : Head) : Head := ⟨g.predicate, g.vars ++ h.vars⟩

/-- A head as it is written in a query. -/
def display (h : Head) : String :=
  h.predicate ++ "(" ++ String.intercalate ", " h.vars ++ ")"

end Head

/-- A relation name applied to terms, perhaps bound to a relation. -/
structure Atom where
  predicate : String
  terms : List Term
  relation : Option Relation
  arity_eq : ∀ r ∈ relation, terms.length = r.arity

namespace Atom

/-- An atom that is not bound to a relation. -/
def free (predicate : String) (terms : List Term) : Atom :=
  ⟨predicate, terms, none, by simp⟩

/-- The variables of an atom in order of first occurrence. -/
def vars (a : Atom) : List String := (a.terms.filterMap Term.asVariable).eraseDups

/-- Whether an atom has no variables. -/
def isGround (a : Atom) : Bool := a.vars.isEmpty

/-- An atom as it is written in a query. -/
def display (a : Atom) : String :=
  a.predicate ++ "(" ++ String.intercalate ", " (a.terms.map Term.display) ++ ")"

end Atom

/-- A head and a conjunction of atoms. -/
structure Query where
  head : Head
  body : List Atom

namespace Query

/-- Whether the head lists no variables. -/
def isBoolean (q : Query) : Bool := q.head.vars.isEmpty

/-- The variables of the body in order of first occurrence. -/
def bodyVariables (q : Query) : List String := (q.body.flatMap Atom.vars).eraseDups

/-- The Boolean query with the same body. -/
def toBoolean (q : Query) : Query := ⟨⟨q.head.predicate, []⟩, q.body⟩

/-- A query as it is written. -/
def display (q : Query) : String :=
  match q.body with
  | [] => q.head.display ++ "."
  | body => q.head.display ++ " :- " ++ String.intercalate ", " (body.map Atom.display) ++ "."

end Query

end Conjunctive
