import Conjunctive.Query.Basic
import Conjunctive.Query.Parse

/-!
# From written queries to queries

Resolving a form looks up the relation of every atom and checks that it has as
many columns as the atom has terms. The head is settled first, then the atoms
in order, and of each atom its relation before its terms. The first fault is
reported.
-/

namespace Conjunctive

/-- Why a written query is no query over the relations at hand. -/
inductive QueryError where
  | parse (e : ParseError)
  | unknownRelation (name : String)
  | arityMismatch (predicate : String) (terms columns : Nat)
  | invalidHead (predicate : String) (term : Term)
  /-- A constant is of a kind that no constant has. -/
  | notAConstant (kind : String)

namespace QueryError

/-- The wording of an error, except for those that are told by their parts. -/
def message? : QueryError → Option String
  | parse e => e.message?
  | unknownRelation name => some ("No relation named '" ++ name ++ "'.")
  | arityMismatch predicate terms columns =>
    some <| "Atom " ++ predicate ++ " has " ++ toString terms ++ " terms but relation '"
      ++ predicate ++ "' has " ++ toString columns ++ " columns."
  | invalidHead predicate term =>
    some <| "Head of " ++ predicate ++ " may only contain variables, got " ++ term.display ++ "."
  | notAConstant kind => some ("Constant value must be a string or a number, got " ++ kind)

end QueryError

namespace Atom

/-- The atom over a relation, if it has as many terms as the relation has
columns. -/
def bound? (predicate : String) (terms : List Term) (r : Relation) : Except QueryError Atom :=
  if h : terms.length = r.arity then
    .ok
      { predicate, terms, relation := some r
        arity_eq := by simpa using h }
  else .error (.arityMismatch predicate terms.length r.arity)

end Atom

namespace Head

/-- The head over some terms, which must all be variables. -/
def ofTerms? (predicate : String) (terms : List Term) : Except QueryError Head :=
  match terms.find? fun t => !t.isVariable with
  | some t => .error (.invalidHead predicate t)
  | none => .ok ⟨predicate, terms.filterMap Term.asVariable⟩

end Head

namespace LooseTerm

def toTerm? : LooseTerm → Except QueryError Term
  | .variable name => .ok (.variable name)
  | constant v =>
    match Constant.ofValue? v with
    | .ok c => .ok (.constant c)
    | .error kind => .error (.notAConstant kind)
  | unknown kind => .error (.parse (.unknownTermKind kind))

end LooseTerm

namespace QueryForm

variable {τ : Type}

/-- The head of a form. -/
def resolveHead (read : τ → Except QueryError Term) (q : QueryForm τ) :
    Except QueryError Head := do
  let terms ← q.head.terms.mapM read
  Head.ofTerms? q.head.name terms

/-- The query that a form is over the relations that `find` gives. -/
def resolve (find : String → Option Relation) (read : τ → Except QueryError Term)
    (q : QueryForm τ) : Except QueryError Query := do
  let head ← q.resolveHead read
  let body ← q.body.mapM fun a =>
    match find a.name with
    | none => .error (.unknownRelation a.name)
    | some r => do
      let terms ← a.terms.mapM read
      Atom.bound? a.name terms r
  pure ⟨head, body⟩

/-- The query that a form is, with no atom bound to a relation. -/
def unbound (q : QueryForm Term) : Except QueryError Query := do
  let head ← q.resolveHead .ok
  pure ⟨head, q.body.map fun a => Atom.free a.name a.terms⟩

end QueryForm

end Conjunctive
