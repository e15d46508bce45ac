import Conjunctive.Batch.Basic

/-!
# Bag intersection

A row occurs in the intersection of some batches as often as in the batch that
has it least often. The rows come in the order of a smallest batch, the head is
that of the first batch.

The rows of a batch are tallied, the smallest batch first, until nothing is common to
the tallies so far. What they have in common is the budget for the rows of the smallest
batch: each row that is kept spends one occurrence. Rows that are tallied have to
consist of keys.
-/

namespace Conjunctive

/-- Rows with the numbers of their occurrences, in the order in which they first came up. -/
abbrev Tally := List (Row × Nat)

namespace Tally

/-- How often a row occurs. -/
def times (r : Row) : Tally → Nat
  | [] => 0
  | (s, n) :: rest => if s.same r then n else times r rest

/-- Change the number of occurrences of a row. -/
def adjust (r : Row) (f : Nat → Nat) : Tally → Tally
  | [] => [(r, f 0)]
  | (s, n) :: rest => if s.same r then (s, f n) :: rest else (s, n) :: adjust r f rest

/-- Add one occurrence of a row. -/
def add (t : Tally) (r : Row) : Tally := t.adjust r (· + 1)

/-- Take away one occurrence of a row. -/
def spend (t : Tally) (r : Row) : Tally := t.adjust r (· - 1)

def ofRows (rows : List Row) : Tally := rows.foldl add []

/-- The occurrences that two tallies have in common. -/
def meet (t u : Tally) : Tally :=
  t.filterMap fun p =>
    let n := min p.2 (u.times p.1)
    if n = 0 then none else some (p.1, n)

end Tally

namespace Batch

/-- The tally of the rows of a batch. -/
def tally (b : Batch) : Except BatchError Tally := do
  b.checkKeys
  pure (Tally.ofRows b.rows)

/-- What a tally has in common with the rows of some batches. The batches after the one
with which nothing is common any more are not looked at. -/
def commonTally (common : Tally) : List Batch → Except BatchError Tally
  | [] => pure common
  | b :: bs => do
    let tally ← b.tally
    let common := common.meet tally
    if common.isEmpty then pure common else commonTally common bs

/-- Keep rows as long as the budget for them lasts. -/
def keepWithin (budget : Tally) : List Row → List Row
  | [] => []
  | r :: rs =>
    if 0 < budget.times r then r :: keepWithin (budget.spend r) rs else keepWithin budget rs

/-- Batches in the order of their numbers of rows. -/
def bySize (batches : List Batch) : List Batch :=
  batches.mergeSort fun a b => decide (a.rows.length ≤ b.rows.length)

/-- The intersection of batches in the order of their sizes, under a head. -/
def intersectOrdered (head : Head) : List Batch → Except BatchError Batch
  | [] => pure (empty head)
  | least :: larger =>
    if least.isEmpty then pure (empty head)
    else do
      let tally ← least.tally
      let budget ← commonTally tally larger
      pure ⟨head, keepWithin budget least.rows⟩

/-- The intersection of some batches. -/
def intersect : List Batch → Except BatchError Batch
  | [] => pure (empty (Head.ofVars []))
  | [b] => pure b
  | first :: others => intersectOrdered first.head (bySize (first :: others))

end Batch

end Conjunctive
