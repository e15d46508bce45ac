import Conjunctive.Query.Basic
import Conjunctive.Batch.Join
import Conjunctive.Batch.Projection

/-!
# Scanning relations

An atom matches a row of its relation when every constant is the same as the
cell at its place and every variable finds the same value in all its places.
As no cell of a relation is a float that is not a number, cells are the same
here just if they are equal.
Scanning an atom gives the matching rows, restricted to the variables of a
head. The atoms of one node of a join forest have the same variables, and are
solved together by joining their scans.
-/

namespace Conjunctive

/-- Why a query cannot be evaluated. -/
inductive EvaluationError where
  /-- The hypergraph of the query is cyclic; the vertices of the hyperedges
  that are left are given. -/
  | cyclic (q : Query) (left : List (List String))
  /-- An atom is not bound to a relation. -/
  | unboundAtom (a : Atom)
  /-- A node of the forest is read before it was visited. -/
  | unvisited (vertices : List String)
  | batch (e : BatchError)

namespace EvaluationError

/-- The wording of an error, except for those that are told by their kind alone. -/
def message? : EvaluationError → Option String
  | cyclic q _ => some ("Given query is cyclic: " ++ q.display)
  | unboundAtom a => some ("Atom " ++ a.display ++ " is not bound to a relation.")
  | unvisited _ => none
  | batch e => e.message?

end EvaluationError

/-- Values for variables. -/
abbrev Valuation := List (String × Value)

namespace Valuation

/-- The value of a variable. -/
def value? (σ : Valuation) (v : String) : Option Value := List.lookup v σ

end Valuation

namespace Atom

/-- Match terms against cells one by one, extending a valuation. -/
def matchFrom (σ : Valuation) : List Term → Row → Option Valuation
  | .variable v :: ts, x :: xs =>
    match σ.value? v with
    | some y => if y.same x then matchFrom σ ts xs else none
    | none => matchFrom ((v, x) :: σ) ts xs
  | .constant c :: ts, x :: xs => if c.value.same x then matchFrom σ ts xs else none
  | _, _ => some σ

/-- The valuation under which the terms of an atom are a row. -/
def match? (a : Atom) (row : Row) : Option Valuation := matchFrom [] a.terms row

/-- The variables of a head that occur in an atom. -/
def columnsIn (a : Atom) (head : List String) : List String :=
  head.filter a.vars.contains

/-- The rows of a relation that an atom matches, restricted to the variables of
a head. -/
def scanRows (a : Atom) (head : List String) (rows : List Row) : List Row :=
  rows.filterMap fun row => do
    let σ ← a.match? row
    (a.columnsIn head).mapM σ.value?

/-- Scan the relation of an atom. -/
def scan (a : Atom) (head : List String) : Except EvaluationError Batch :=
  match a.relation with
  | none => .error (.unboundAtom a)
  | some r => .ok ⟨Head.ofVars (a.columnsIn head), a.scanRows head r.rows⟩

end Atom

/-- Lift a failed access to a batch to an evaluation error. -/
def liftBatch {α : Type} (x : Except BatchError α) : Except EvaluationError α :=
  x.mapError EvaluationError.batch

/-- Join a batch with the scans of further atoms, until it is empty. -/
def joinScans (head : List String) (b : Batch) : List Atom → Except EvaluationError Batch
  | [] => pure b
  | a :: as =>
    if b.isEmpty then pure b
    else do
      let scanned ← a.scan head
      let joined ← liftBatch (b.join scanned)
      joinScans head joined as

/-- Solve some atoms together, over a head. -/
def scanAll (atoms : List Atom) (head : List String) : Except EvaluationError Batch :=
  match atoms with
  | [] => pure (Batch.empty (Head.ofVars head))
  | [a] => a.scan head
  | a :: as => do
    let first ← a.scan head
    let joined ← joinScans head first as
    liftBatch (joined.project head)

end Conjunctive
