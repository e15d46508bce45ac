import Conjunctive.Value.Basic
import Std.Data.HashSet

/-!
# Rows

A row is a list of cell values. Rows are the same when they are equally long
and agree cell by cell, which is equality of their lists of denotations. The
module counts a row among others and drops repetitions. Rows are looked up by their
denotations, and only if all of their cells can be keys.
-/

namespace Conjunctive

/-- A row of cells. -/
abbrev Row := List Value

namespace Row

/-- The denotations of the cells of a row. -/
def denotation (r : Row) : List Denotation := r.map Value.denotation

@[simp] theorem denotation_nil : Row.denotation [] = [] := rfl

@[simp] theorem denotation_cons (v : Value) (r : Row) :
    Row.denotation (v :: r) = v.denotation :: r.denotation := rfl

theorem denotation_append (r s : Row) :
    Row.denotation (r ++ s) = r.denotation ++ s.denotation := List.map_append

@[simp] theorem denotation_length (r : Row) : r.denotation.length = r.length := List.length_map _

/-- Whether two rows are the same cell by cell. -/
def same (r s : Row) : Bool := r.denotation == s.denotation

theorem same_iff {r s : Row} : r.same s = true ↔ r.denotation = s.denotation := by
  simp [same]

@[simp] theorem same_refl (r : Row) : r.same r = true := same_iff.mpr rfl

theorem same_comm (r s : Row) : r.same s = s.same r := by
  simp [same, Bool.beq_comm]

theorem same_trans {r s t : Row} (h : r.same s = true) (k : s.same t = true) :
    r.same t = true :=
  same_iff.mpr ((same_iff.mp h).trans (same_iff.mp k))

/-- How often a row occurs among others. -/
def count (r : Row) (rows : List Row) : Nat := rows.countP r.same

@[simp] theorem count_nil (r : Row) : r.count [] = 0 := rfl

theorem count_append (r : Row) (ss ts : List Row) :
    r.count (ss ++ ts) = r.count ss + r.count ts := by
  simp [count]

/-- The rows not yet seen, each at its first occurrence. -/
def distinctFrom (seen : Std.HashSet (List Denotation)) : List Row → List Row
  | [] => []
  | r :: rs =>
    if seen.contains r.denotation then distinctFrom seen rs
    else r :: distinctFrom (seen.insert r.denotation) rs

/-- The rows without repetitions, each at its first occurrence. -/
def distinct (rows : List Row) : List Row := distinctFrom ∅ rows

end Row

end Conjunctive
