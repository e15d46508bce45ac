import Conjunctive.Batch.Basic

/-!
# Indexes

An index groups the rows of one batch, the indexed side, for look-ups by the
rows of another, the probing side. A key has the shape of a probing row: at
every column of a shared variable it holds a value for that variable, and
`unbound` elsewhere. A row of the indexed side whose columns for one variable
disagree gets no key, and so no probing row finds it. Columns disagree if their
cells are not equal, whereas a key finds a key with the same cells.

Groups are kept in the order in which their keys first came up.
-/

namespace Conjunctive

/-- Rows grouped by key. -/
abbrev Index := List (Row × List Row)

namespace Index

/-- Add a row under a key. -/
def insert (key row : Row) : Index → Index
  | [] => [(key, [row])]
  | (k, rows) :: rest =>
    if k.same key then (k, rows ++ [row]) :: rest else (k, rows) :: insert key row rest

def find (key : Row) : Index → List Row
  | [] => []
  | (k, rows) :: rest => if k.same key then rows else find key rest

end Index

namespace Batch

/-- Put one value into several columns of a key. -/
def place (key : Row) (columns : List Nat) (v : Value) : Row :=
  columns.foldl (fun k c => k.set c v) key

/-- The key of a probing row: its own cells at the columns of the shared
variables. -/
def probeKey (probe : Batch) (sharedVars : List String) (row : Row) :
    Except BatchError Row :=
  sharedVars.foldlM
    (fun key v => do
      let columns ← probe.columns v
      columns.foldlM
        (fun key c => do
          let x ← row.cell c
          pure (key.set c x))
        key)
    (List.replicate probe.head.vars.length Value.unbound)

/-- Whether the cells of a row in the given columns are equal to a value. -/
def agrees (row : Row) (v : Value) : List Nat → Except BatchError Bool
  | [] => pure true
  | c :: cs => do
    let w ← row.cell c
    if w.equals v then agrees row v cs else pure false

/-- The value that a row gives to a variable with the given columns, unless
they disagree. -/
def valueAt (row : Row) : List Nat → Except BatchError (Option Value)
  | [] => pure none
  | c :: cs => do
    let v ← row.cell c
    let agreed ← agrees row v cs
    pure (if agreed then some v else none)

/-- The key of an indexed row, unless its columns for some variable disagree.
Each shared variable comes with its columns in the indexed and in the probing
batch. -/
def buildKey (row : Row) (key : Row) : List (List Nat × List Nat) → Except BatchError (Option Row)
  | [] => pure (some key)
  | (buildColumns, probeColumns) :: rest => do
    match ← valueAt row buildColumns with
    | some v => buildKey row (place key probeColumns v) rest
    | none => pure none

/-- The index of the rows of `build` for look-ups by rows of `probe`. -/
def index (probe build : Batch) (sharedVars : List String) : Except BatchError Index := do
  let placements ← sharedVars.mapM fun v => do
    let buildColumns ← build.columns v
    let probeColumns ← probe.columns v
    pure (buildColumns, probeColumns)
  let blank := List.replicate probe.head.vars.length Value.unbound
  build.rows.foldlM
    (fun groups row => do
      match ← buildKey row blank placements with
      | some key => do
        key.checkKeys
        pure (groups.insert key row)
      | none => pure groups)
    []

end Batch

end Conjunctive
