import Conjunctive.Batch.Intersection
import Conjunctive.Proofs.Batch.Columns

/-!
# Tallies and budgets

A tally is known by how often each row occurs in it, and this is what the operations
are told by: the tally of some rows counts them (`times_ofRows`), what two tallies have in
common is the lesser number for each row (`times_meet`), and rows that are kept within
a budget are kept as often as it allows, or as often as there are (`count_keepWithin`).

The last is by induction on the rows: one that is kept lowers the budget for the rows
that are the same as it by one, and no other.
-/

namespace Conjunctive

namespace Row

theorem same_congr {r s : Row} (h : r.same s = true) (t : Row) : t.same r = t.same s := by
  rw [Bool.eq_iff_iff, same_iff, same_iff, same_iff.mp h]

theorem count_cons (r s : Row) (rows : List Row) :
    r.count (s :: rows) = r.count rows + if r.same s then 1 else 0 := by
  rw [count, count, List.countP_cons]

end Row

namespace Tally

open Row

theorem times_congr {r s : Row} (h : r.same s = true) (t : Tally) : t.times r = t.times s := by
  induction t with
  | nil => rfl
  | cons p t ih => rw [times, times, ih, same_congr h]

/-- Only the number of the row that is adjusted changes. -/
theorem times_adjust (t : Tally) (r : Row) (f : Nat → Nat) (s : Row) :
    (t.adjust r f).times s = if r.same s then f (t.times s) else t.times s := by
  induction t with
  | nil => rfl
  | cons p t ih =>
      obtain ⟨k, n⟩ := p
      rw [adjust]
      by_cases hk : k.same r = true
      · have hsame : k.same s = r.same s := by
          rw [same_comm k s, same_comm r s, same_congr hk]
        rw [if_pos hk, times, times, hsame]
        split_ifs <;> rfl
      · rw [if_neg hk, times, times, ih]
        by_cases hs : k.same s = true
        · have hr : ¬ r.same s = true := by
            intro h
            exact hk (same_congr h k ▸ hs)
          rw [if_pos hs, if_pos hs, if_neg hr]
        · rw [if_neg hs, if_neg hs]

theorem times_foldl_add (rows : List Row) (t : Tally) (r : Row) :
    (rows.foldl add t).times r = t.times r + r.count rows := by
  induction rows generalizing t with
  | nil => rfl
  | cons s rows ih =>
      rw [List.foldl_cons, ih, add, times_adjust, count_cons, same_comm s r]
      split_ifs <;> omega

/-- The tally of some rows counts them. -/
theorem times_ofRows (rows : List Row) (r : Row) : (ofRows rows).times r = r.count rows := by
  rw [ofRows, times_foldl_add, times, Nat.zero_add]

/-- Each row of a tally occurs. -/
def Positive (t : Tally) : Prop := ∀ p ∈ t, 0 < p.2

theorem Positive.add {t : Tally} (h : t.Positive) (r : Row) : (t.add r).Positive := by
  unfold Tally.add
  induction t with
  | nil => simp [adjust, Positive]
  | cons p t ih =>
      obtain ⟨hp, ht⟩ := List.forall_mem_cons.mp h
      rw [adjust]
      split_ifs
      · exact List.forall_mem_cons.mpr ⟨Nat.succ_pos _, ht⟩
      · exact List.forall_mem_cons.mpr ⟨hp, ih ht⟩

theorem positive_ofRows (rows : List Row) : (ofRows rows).Positive := by
  have hrun : ∀ t : Tally, t.Positive → (rows.foldl Tally.add t).Positive := by
    induction rows with
    | nil => exact fun _ ht => ht
    | cons r rows ih => exact fun t ht => ih _ (ht.add r)
  exact hrun [] (by simp [Positive])

theorem positive_meet (t u : Tally) : (t.meet u).Positive := by
  intro p hp
  obtain ⟨q, -, hq⟩ := List.mem_filterMap.mp hp
  dsimp only at hq
  split_ifs at hq with hzero
  cases hq
  exact Nat.pos_of_ne_zero hzero

/-- Two tallies have in common the lesser of the numbers of each row. A row that is left
out has none in common, as it occurs in the first. -/
theorem times_meet {t : Tally} (ht : t.Positive) (u : Tally) (r : Row) :
    (t.meet u).times r = min (t.times r) (u.times r) := by
  induction t with
  | nil => rw [meet, List.filterMap_nil, times, Nat.zero_min]
  | cons p t ih =>
      obtain ⟨k, n⟩ := p
      obtain ⟨hn, ht⟩ := List.forall_mem_cons.mp ht
      have hrest := ih ht
      rw [meet] at hrest ⊢
      rw [List.filterMap_cons, times]
      dsimp only at hn ⊢
      by_cases hk : k.same r = true
      · rw [times_congr hk u, if_pos hk]
        split_ifs with hzero
        · rw [hrest]
          omega
        · rw [times, if_pos hk]
      · rw [if_neg hk, ← hrest]
        split_ifs
        · rfl
        · rw [times, if_neg hk]

end Tally

namespace Batch

open Row

theorem tally_eq_ok_iff {b : Batch} {t : Tally} :
    b.tally = .ok t ↔ b.checkKeys = .ok () ∧ t = Tally.ofRows b.rows := by
  rw [tally, bind_eq_ok_iff]
  constructor
  · rintro ⟨⟨⟩, hkeys, ht⟩
    cases ht
    exact ⟨hkeys, rfl⟩
  · rintro ⟨hkeys, rfl⟩
    exact ⟨(), hkeys, rfl⟩

/-- What is common in the end are the least of the numbers of each row. -/
theorem times_commonTally {common t : Tally} (hcommon : common.Positive) {bs : List Batch}
    (h : commonTally common bs = .ok t) (r : Row) :
    t.times r = (bs.map fun b => r.count b.rows).foldl min (common.times r) := by
  induction bs generalizing common with
  | nil =>
      cases h
      rfl
  | cons b bs ih =>
      obtain ⟨u, hu, h⟩ := bind_eq_ok_iff.mp h
      obtain ⟨-, rfl⟩ := tally_eq_ok_iff.mp hu
      have htimes := Tally.times_meet hcommon (Tally.ofRows b.rows) r
      rw [Tally.times_ofRows] at htimes
      rw [List.map_cons, List.foldl_cons, ← htimes]
      dsimp only at h
      split_ifs at h with hempty
      · cases h
        rw [List.isEmpty_iff.mp hempty, Tally.times, List.foldl_fixed' Nat.zero_min]
      · exact ih (Tally.positive_meet _ _) h

/-- Rows are kept as often as the budget allows, or as often as there are. -/
theorem count_keepWithin (budget : Tally) (rows : List Row) (r : Row) :
    r.count (keepWithin budget rows) = min (budget.times r) (r.count rows) := by
  induction rows generalizing budget with
  | nil => rw [keepWithin, count_nil, Nat.min_zero]
  | cons s rows ih =>
      rw [keepWithin, count_cons]
      by_cases hs : s.same r = true
      · have htimes : budget.times s = budget.times r := Tally.times_congr hs budget
        rw [htimes, same_comm r s, if_pos hs]
        split_ifs with hbudget
        · rw [count_cons, same_comm r s, if_pos hs, ih, Tally.spend, Tally.times_adjust, if_pos hs]
          omega
        · rw [ih]
          omega
      · have hrest : r.count (keepWithin (budget.spend s) rows) =
            min (budget.times r) (r.count rows) := by
          rw [ih, Tally.spend, Tally.times_adjust, if_neg hs]
        rw [same_comm r s, if_neg hs, Nat.add_zero]
        split_ifs
        · rw [count_cons, same_comm r s, if_neg hs, Nat.add_zero, hrest]
        · exact ih budget

theorem keepWithin_sublist (budget : Tally) (rows : List Row) :
    (keepWithin budget rows).Sublist rows := by
  induction rows generalizing budget with
  | nil => exact List.Sublist.slnil
  | cons s rows ih =>
      rw [keepWithin]
      split_ifs
      · exact (ih _).cons_cons s
      · exact (ih _).cons s

end Batch

end Conjunctive
