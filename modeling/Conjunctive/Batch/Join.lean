import Conjunctive.Batch.Index

/-!
# Joins of batches

A join pairs the rows of two batches that agree on the variables they share; a
semijoin keeps the rows of the first that have a partner in the second. Both
look partners up in an index. A join indexes the second batch if it has at most
as many rows as the first, and the first otherwise.
-/

namespace Conjunctive

namespace Batch

/-- The rows of a probing batch together with their partners under an index. -/
def partners (probe : Batch) (sharedVars : List String) (groups : Index) :
    Except BatchError (List (Row × List Row)) :=
  probe.rows.mapM fun row => do
    let key ← probe.probeKey sharedVars row
    key.checkKeys
    pure (row, groups.find key)

/-- The rows of `a` that agree with some row of `b` on the shared variables. -/
def semijoin (a b : Batch) : Except BatchError Batch :=
  if a.isEmpty || b.isEmpty then pure (empty a.head)
  else do
    let sharedVars := a.shared b
    let groups ← index a b sharedVars
    let found ← a.partners sharedVars groups
    pure ⟨a.head, (found.filter fun p => !p.2.isEmpty).map Prod.fst⟩

/-- The rows of `a` and `b` side by side that agree on the shared variables. -/
def join (a b : Batch) : Except BatchError Batch :=
  let head := a.head.append b.head
  if a.isEmpty || b.isEmpty then pure (empty head)
  else do
    let sharedVars := a.shared b
    if b.rows.length ≤ a.rows.length then
      let groups ← index a b sharedVars
      let found ← a.partners sharedVars groups
      pure ⟨head, found.flatMap fun p => p.2.map fun r => p.1 ++ r⟩
    else
      let groups ← index b a sharedVars
      let found ← b.partners sharedVars groups
      pure ⟨head, found.flatMap fun p => p.2.map fun r => r ++ p.1⟩

/-- All pairs of rows side by side. -/
def product (a b : Batch) : Batch :=
  ⟨a.head.append b.head, a.rows.flatMap fun r => b.rows.map fun s => r ++ s⟩

end Batch

end Conjunctive
