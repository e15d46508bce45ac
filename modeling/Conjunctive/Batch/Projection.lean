import Conjunctive.Batch.Basic

/-!
# Projection

A batch is projected onto a list of variables by reading, for each of them, its
first column. Variables that the batch does not have are left out. The number
and the order of the rows stay the same.
-/

namespace Conjunctive

namespace Batch

/-- A batch projected onto variables, in their order. -/
def project (b : Batch) (vars : List String) : Except BatchError Batch := do
  let kept := vars.filterMap fun v => (b.columnsOf v).head?.map fun c => (v, c)
  let rows ← b.rows.mapM fun r => kept.mapM fun k => r.cell k.2
  pure ⟨⟨b.head.predicate, kept.map Prod.fst⟩, rows⟩

end Batch

end Conjunctive
