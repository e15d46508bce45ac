import Conjunctive.Forest.Walk
import Conjunctive.Evaluation.Scan
import Conjunctive.Batch.Intersection

/-!
# Evaluation along the join forest

An acyclic query is evaluated on its join forest. Every node first gets the
rows that solve its own atoms.

* Reducing from below keeps the rows of a node that have partners in each of
  its children. For a Boolean query this decides the answer.
* Reducing from above then keeps the rows of a child that have a partner in
  its parent. What remains at a node are the parts of solutions of its tree.
* Joining from below extends the rows of a node by those of its children, so
  that a root holds the solutions of its tree.

The solutions of the query are the combinations of solutions of the trees; the
answer is their projection onto the head. Ground atoms are no part of the
forest: if one has no matching row, there are no solutions.
-/

namespace Conjunctive

/-- The answer to a query: a truth value for a Boolean query, else a batch. -/
inductive Answer where
  | truth (b : Bool)
  | batch (b : Batch)

/-- How far an evaluation has come. -/
inductive Phase where
  | building
  | cyclic
  | reducingUp
  | decided
  | reducingDown
  | joining
  | combined
  deriving DecidableEq

/-- The batches at the nodes of a forest. -/
structure NodeBatches where
  entries : List (Hyperedge × Batch)

namespace NodeBatches

/-- No node has a batch yet. -/
def none : NodeBatches := ⟨[]⟩

def find? (s : NodeBatches) (n : Hyperedge) : Option Batch :=
  (s.entries.find? fun p => p.1.vertices == n.vertices).map Prod.snd

/-- The batch at a node that was visited. -/
def get (s : NodeBatches) (n : Hyperedge) : Except EvaluationError Batch :=
  match s.find? n with
  | some b => .ok b
  | .none => .error (.unvisited n.vertices)

def set (s : NodeBatches) (n : Hyperedge) (b : Batch) : NodeBatches :=
  if (s.find? n).isSome then
    ⟨s.entries.map fun p => if p.1.vertices == n.vertices then (p.1, b) else p⟩
  else ⟨s.entries ++ [(n, b)]⟩

end NodeBatches

namespace Forest

/-- Semijoin a batch with the batches of some nodes, up to the first empty
result. -/
def semijoins (s : NodeBatches) (b : Batch) :
    List Hyperedge → Except EvaluationError (List Batch)
  | [] => pure []
  | n :: ns => do
    let partner ← s.get n
    let reduced ← liftBatch (b.semijoin partner)
    if reduced.isEmpty then pure [reduced]
    else do
      let rest ← semijoins s b ns
      pure (reduced :: rest)

/-- The rows of a node that solve its atoms and have partners in its
children. -/
def reduceNode (f : Forest) (s : NodeBatches) (n : Hyperedge) :
    Except EvaluationError NodeBatches := do
  let own ← scanAll n.atoms n.vertices
  match f.children n with
  | [] => pure (s.set n own)
  | children => do
    let reduced ← semijoins s own children
    let own ← liftBatch (Batch.intersect reduced)
    pure (s.set n own)

/-- Reduce every node by its children, from below. -/
def reduceUp (f : Forest) : Except EvaluationError NodeBatches :=
  f.bottomUp.foldlM f.reduceNode .none

/-- Reduce every child by its parent, from above. -/
def reduceDown (f : Forest) (s : NodeBatches) : Except EvaluationError NodeBatches :=
  f.topDown.foldlM
    (fun s link => do
      let child ← s.get link.2
      let parent ← s.get link.1
      let reduced ← liftBatch (child.semijoin parent)
      pure (s.set link.2 reduced))
    s

/-- Join a batch with the batches of some nodes one by one. After each join
every variable keeps only its first column. -/
def joinNodes (headVars : List String) (s : NodeBatches) (b : Batch) (ns : List Hyperedge) :
    Except EvaluationError Batch :=
  ns.foldlM
    (fun b n => do
      let partner ← s.get n
      let joined ← liftBatch (b.join partner)
      let keep := joined.vars
        ++ headVars.filter fun v => !joined.head.vars.contains v
      liftBatch (joined.project keep))
    b

/-- Extend the rows of every node by those of its children, from below. -/
def joinUp (f : Forest) (headVars : List String) (s : NodeBatches) :
    Except EvaluationError NodeBatches :=
  f.innerBottomUp.foldlM
    (fun s n => do
      let own ← s.get n
      let joined ← joinNodes headVars s own (f.children n)
      pure (s.set n joined))
    s

/-- The combinations of the rows of the roots. Without roots there is one, the
empty row. -/
def combine (f : Forest) (s : NodeBatches) : Except EvaluationError Batch := do
  match ← f.roots.mapM s.get with
  | [] => pure ⟨Head.ofVars [], [[]]⟩
  | b :: bs => pure (bs.foldl Batch.product b)

/-- Whether every root has rows. -/
def rootsHold (f : Forest) (s : NodeBatches) : Except EvaluationError Bool := do
  let batches ← f.roots.mapM s.get
  pure (batches.all fun b => !b.isEmpty)

end Forest

namespace Query

/-- Whether every ground atom has a matching row. The first that has none
settles the matter. -/
def groundAtomsHold : List Atom → Except EvaluationError Bool
  | [] => pure true
  | a :: as =>
    if a.isGround then do
      let b ← a.scan []
      if b.isEmpty then pure false else groundAtomsHold as
    else groundAtomsHold as

/-- The variables of the head that occur in the body. -/
def answerVariables (q : Query) : List String :=
  q.head.vars.filter q.bodyVariables.contains

/-- The combined rows of a forest as the answer to a query. -/
def finish (q : Query) (distinct : Bool) (combined : Batch) :
    Except EvaluationError Batch := do
  let projected ← liftBatch (combined.project q.head.vars)
  let answer : Batch := ⟨⟨q.head.predicate, projected.head.vars⟩, projected.rows⟩
  if distinct then liftBatch answer.distinct else pure answer

end Query

/-- The batches at the nodes after a pass over the forest, and the phase of that
pass. -/
structure Snapshot where
  phase : Phase
  batches : NodeBatches

/-- All that an evaluation shows: the forest if there is one, the batches after
each pass, the phase reached, and the answer. -/
structure Evaluation where
  forest : Option Forest
  passes : List Snapshot
  phase : Phase
  answer : Except EvaluationError Answer

namespace Evaluation

/-- Evaluate a query on its forest, after the ground atoms were found to
hold. -/
def onForest (q : Query) (distinct : Bool) (f : Forest) : Evaluation :=
  match f.reduceUp with
  | .error e => ⟨some f, [], .reducingUp, .error e⟩
  | .ok up =>
    let first : Snapshot := ⟨.reducingUp, up⟩
    if q.isBoolean then
      match f.rootsHold up with
      | .error e => ⟨some f, [first], .reducingUp, .error e⟩
      | .ok b => ⟨some f, [first], .decided, .ok (.truth b)⟩
    else
      match f.reduceDown up with
      | .error e => ⟨some f, [first], .reducingDown, .error e⟩
      | .ok down =>
        let second : Snapshot := ⟨.reducingDown, down⟩
        match f.joinUp q.head.vars down with
        | .error e => ⟨some f, [first, second], .joining, .error e⟩
        | .ok joined =>
          let third : Snapshot := ⟨.joining, joined⟩
          match (f.combine joined).bind (q.finish distinct) with
          | .error e => ⟨some f, [first, second, third], .joining, .error e⟩
          | .ok answer => ⟨some f, [first, second, third], .combined, .ok (.batch answer)⟩

/-- Evaluate a query. An outline of the forest is drawn for the log, whether or not there is
one; it is left out here, and with it the failure to draw a forest that is too deep. -/
def run (q : Query) (distinct : Bool) : Evaluation :=
  let elimination := (Hypergraph.ofQuery q).eliminate
  if elimination.left.isEmpty then
    let f : Forest := ⟨elimination.removals⟩
    match Query.groundAtomsHold q.body with
    | .error e => ⟨some f, [], .building, .error e⟩
    | .ok true => onForest q distinct f
    | .ok false =>
      if q.isBoolean then ⟨some f, [], .decided, .ok (.truth false)⟩
      else ⟨some f, [], .combined, .ok (.batch (.empty ⟨q.head.predicate, q.answerVariables⟩))⟩
  else
    ⟨none, [], .cyclic, .error (.cyclic q (elimination.left.map Hyperedge.vertices))⟩

end Evaluation

namespace Query

/-- The answer to a query. -/
def evaluate (q : Query) (distinct : Bool) : Except EvaluationError Answer :=
  (Evaluation.run q distinct).answer

/-- Whether a query has an answer, decided by reducing from below only. -/
def holds (q : Query) : Except EvaluationError Bool := do
  match ← q.toBoolean.evaluate true with
  | .truth b => pure b
  | .batch b => pure !b.isEmpty

end Query

end Conjunctive
