import Conjunctive.Query.Form

/-!
# Reading queries token by token

A text of queries has a regular shape, so it is read by stepping through a
`Reading`: the queries that are complete, and the stage inside the query at
hand with what was read of it. `Reading.step` takes one token or refuses it,
and `Stage.expected` lists the kinds of token that are taken next.
-/

namespace Conjunctive

/-- An atom is read either as the head or into the body of a query. -/
inductive Place where
  | head
  | body (head : AtomForm Term) (before : List (AtomForm Term))

/-- The stage inside one query. -/
inductive Stage where
  /-- Nothing of the query was read. -/
  | start
  /-- A relation name was read. -/
  | name (place : Place) (name : String)
  /-- An opening parenthesis was read. -/
  | opened (place : Place) (name : String)
  /-- A term was read. -/
  | term (place : Place) (name : String) (terms : List Term)
  /-- A comma after a term was read. -/
  | moreTerms (place : Place) (name : String) (terms : List Term)
  /-- The head was read. -/
  | head (head : AtomForm Term)
  /-- The arrow was read. -/
  | arrow (head : AtomForm Term)
  /-- An atom of the body was read. -/
  | atom (head : AtomForm Term) (body : List (AtomForm Term))
  /-- A comma after an atom was read. -/
  | moreAtoms (head : AtomForm Term) (body : List (AtomForm Term))

namespace Stage

def afterAtom (place : Place) (a : AtomForm Term) : Stage :=
  match place with
  | .head => .head a
  | .body h before => .atom h (before ++ [a])

/-- The kinds of token that may come next. -/
def expected : Stage → List Terminal
  | start => [.relation]
  | name _ _ => [.opening]
  | opened _ _ => [.variable, .number, .string, .closing]
  | term _ _ _ => [.comma, .closing]
  | moreTerms _ _ _ => [.variable, .number, .string]
  | head _ => [.arrow]
  | arrow _ => [.dot, .relation]
  | atom _ _ => [.comma, .dot]
  | moreAtoms _ _ => [.relation]

end Stage

/-- The queries read so far and the stage in the query at hand. -/
structure Reading where
  queries : List (QueryForm Term)
  stage : Stage

namespace Reading

/-- Nothing was read. -/
def initial : Reading := ⟨[], .start⟩

/-- Take one token, or refuse it. -/
def step (r : Reading) (t : Token) : Option Reading :=
  let go (s : Stage) : Option Reading := some ⟨r.queries, s⟩
  let done (q : QueryForm Term) : Option Reading := some ⟨r.queries ++ [q], .start⟩
  match r.stage with
  | .start =>
    match t with
    | .relation n => go (.name .head (String.ofList n))
    | _ => none
  | .name place n =>
    match t with
    | .opening => go (.opened place n)
    | _ => none
  | .opened place n =>
    match t with
    | .closing => go (.afterAtom place ⟨n, []⟩)
    | _ => t.term?.bind fun x => go (.term place n [x])
  | .term place n terms =>
    match t with
    | .comma => go (.moreTerms place n terms)
    | .closing => go (.afterAtom place ⟨n, terms⟩)
    | _ => none
  | .moreTerms place n terms => t.term?.bind fun x => go (.term place n (terms ++ [x]))
  | .head h =>
    match t with
    | .arrow => go (.arrow h)
    | _ => none
  | .arrow h =>
    match t with
    | .dot => done ⟨h, []⟩
    | .relation n => go (.name (.body h []) (String.ofList n))
    | _ => none
  | .atom h body =>
    match t with
    | .comma => go (.moreAtoms h body)
    | .dot => done ⟨h, body⟩
    | _ => none
  | .moreAtoms h body =>
    match t with
    | .relation n => go (.name (.body h body) (String.ofList n))
    | _ => none

/-- A token is taken exactly when its kind is expected. -/
theorem isSome_step (r : Reading) (t : Token) :
    (r.step t).isSome = true ↔ t.terminal ∈ r.stage.expected := by
  obtain ⟨queries, stage⟩ := r
  cases stage <;> cases t <;> simp [step, Stage.expected, Token.terminal, Token.term?]

/-- Read tokens up to the first that is refused. Gives the reading reached and
the tokens left. -/
def run (r : Reading) : List (Token × Nat) → Reading × List (Token × Nat)
  | [] => (r, [])
  | t :: ts =>
    match r.step t.1 with
    | some r' => run r' ts
    | none => (r, t :: ts)

/-- Whether the tokens read so far are a text of queries. -/
def isComplete (r : Reading) : Bool :=
  match r.stage with
  | .start => !r.queries.isEmpty
  | _ => false

end Reading

end Conjunctive
