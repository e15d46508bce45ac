import Conjunctive.Proofs.Batch.Index

/-!
# Joins and semijoins compare rows pairwise

The join is the nested loop over pairs of compatible rows, with the larger batch
in the outer loop, and the semijoin filters by compatibility with some row.
Batches that can be looked up keep this property under both.
-/

namespace Conjunctive

namespace Batch

open Row

/-- The semijoin keeps the rows that are compatible with some row of the other batch. -/
theorem semijoin_eq {a b : Batch} (ha : a.Regular) (hb : b.Regular) :
    a.semijoin b = .ok ⟨a.head, a.rows.filter fun r =>
      b.rows.any (compatible a.head.vars b.head.vars r)⟩ := by
  dsimp only [semijoin]
  split_ifs with hempty
  · rw [Bool.or_eq_true, isEmpty_iff, isEmpty_iff] at hempty
    rcases hempty with hrows | hrows
    · simp [hrows, Batch.empty, pure, Except.pure]
    · simp [hrows, Batch.empty, pure, Except.pure]
  · obtain ⟨groups, hindex, hpartners⟩ := partners_eq (fun _ => mem_shared) ha hb
    rw [hindex]
    change (a.partners (a.shared b) groups >>= _) = _
    rw [hpartners]
    refine congrArg (fun rows => Except.ok (Batch.mk a.head rows)) ?_
    rw [List.filter_map, List.map_map]
    change List.map id _ = _
    rw [List.map_id]
    apply List.filter_congr
    intro r _
    rw [Bool.eq_iff_iff]
    simp

/-- The rows of a join, by a nested loop. -/
def joined (a b : Batch) : List Row :=
  if b.rows.length ≤ a.rows.length then
    a.rows.flatMap fun r =>
      (b.rows.filter (compatible a.head.vars b.head.vars r)).map fun s => r ++ s
  else
    b.rows.flatMap fun s =>
      (a.rows.filter fun r => compatible a.head.vars b.head.vars r s).map fun r => r ++ s

theorem perm_joined (a b : Batch) : List.Perm (a.joined b) (a.rows.flatMap fun r =>
    (b.rows.filter (compatible a.head.vars b.head.vars r)).map fun s => r ++ s) := by
  unfold joined
  split_ifs
  · exact List.Perm.refl _
  · exact (perm_flatMap_filter _ _ _ _).symm

theorem mem_joined {a b : Batch} {t : Row} : t ∈ a.joined b ↔
    ∃ r ∈ a.rows, ∃ s ∈ b.rows, compatible a.head.vars b.head.vars r s = true ∧ t = r ++ s := by
  rw [(perm_joined a b).mem_iff, List.mem_flatMap]
  constructor
  · rintro ⟨r, hr, ht⟩
    obtain ⟨s, hs, rfl⟩ := List.mem_map.mp ht
    obtain ⟨hs, hcompatible⟩ := List.mem_filter.mp hs
    exact ⟨r, hr, s, hs, hcompatible, rfl⟩
  · rintro ⟨r, hr, s, hs, hcompatible, rfl⟩
    exact ⟨r, hr, List.mem_map_of_mem (List.mem_filter.mpr ⟨hs, hcompatible⟩)⟩

/-- A join of batches that can be looked up can be looked up again. -/
theorem Regular.joined {a b : Batch} (ha : a.Regular) (hb : b.Regular) :
    Regular ⟨a.head.append b.head, a.joined b⟩ where
  wellShaped := by
    intro t ht
    obtain ⟨r, hr, s, hs, -, rfl⟩ := mem_joined.mp ht
    rw [List.length_append, ha.wellShaped r hr, hb.wellShaped s hs]
    exact List.length_append.symm
  comparable := by
    intro t ht v hv
    obtain ⟨r, hr, s, hs, -, rfl⟩ := mem_joined.mp ht
    rcases List.mem_append.mp hv with hv | hv
    · exact ha.comparable r hr v hv
    · exact hb.comparable s hs v hv

/-- The join pairs the compatible rows, whichever of the batches is indexed. -/
theorem join_eq {a b : Batch} (ha : a.Regular) (hb : b.Regular) :
    a.join b = .ok ⟨a.head.append b.head, a.joined b⟩ := by
  dsimp only [join]
  by_cases hempty : (a.isEmpty || b.isEmpty) = true
  · rw [if_pos hempty]
    rw [Bool.or_eq_true, isEmpty_iff, isEmpty_iff] at hempty
    rcases hempty with hrows | hrows
    · simp [hrows, joined, Batch.empty, pure, Except.pure]
    · simp [hrows, joined, Batch.empty, pure, Except.pure]
  · rw [if_neg hempty, joined]
    split_ifs
    · obtain ⟨groups, hindex, hpartners⟩ := partners_eq (fun _ => mem_shared) ha hb
      rw [hindex]
      change (a.partners (a.shared b) groups >>= _) = _
      rw [hpartners]
      refine congrArg (fun rows => Except.ok (Batch.mk (a.head.append b.head) rows)) ?_
      rw [List.flatMap_map]
    · obtain ⟨groups, hindex, hpartners⟩ :=
        partners_eq (fun _ => mem_shared.trans and_comm) hb ha
      rw [hindex]
      change (b.partners (a.shared b) groups >>= _) = _
      rw [hpartners]
      refine congrArg (fun rows => Except.ok (Batch.mk (a.head.append b.head) rows)) ?_
      rw [List.flatMap_map]
      apply List.flatMap_congr
      intro s _
      have hcomm : compatible b.head.vars a.head.vars s =
          fun r => compatible a.head.vars b.head.vars r s := by
        funext r
        exact compatible_comm _ _ _ _
      rw [hcomm]

/-- The rows of two batches side by side whose cells under shared labels are related pairwise,
with the larger batch in the outer loop. -/
def nestedLoop (related : Value → Value → Bool) (a b : Batch) : List Row :=
  if b.rows.length ≤ a.rows.length then
    a.rows.flatMap fun r =>
      (b.rows.filter fun s => relates related a.head.vars b.head.vars r s).map fun s => r ++ s
  else
    b.rows.flatMap fun s =>
      (a.rows.filter fun r => relates related a.head.vars b.head.vars r s).map fun r => r ++ s

theorem nestedLoop_equals {a b : Batch} (ha : a.Regular) (hb : b.Regular) :
    nestedLoop Value.equals a b = a.joined b := by
  have hrelates : ∀ r ∈ a.rows, ∀ s ∈ b.rows,
      relates Value.equals a.head.vars b.head.vars r s =
        compatible a.head.vars b.head.vars r s :=
    fun r hr s hs => relates_equals (ha.comparable r hr) (hb.comparable s hs)
  unfold nestedLoop joined
  split_ifs
  · exact List.flatMap_congr fun r hr =>
      congrArg _ (List.filter_congr fun s hs => hrelates r hr s hs)
  · exact List.flatMap_congr fun s hs =>
      congrArg _ (List.filter_congr fun r hr => hrelates r hr s hs)

/-- A join pairs the rows whose cells under shared labels are equal. The larger batch is in the
outer loop, and the bag of rows is the same as if the first batch always were. -/
theorem join_eq_nestedLoop {a b : Batch} (ha : a.Regular) (hb : b.Regular) :
    ∃ j, a.join b = .ok j ∧ j.head.predicate = a.head.predicate ∧
      j.head.vars = a.head.vars ++ b.head.vars ∧ j.rows = nestedLoop Value.equals a b ∧
      List.Perm j.rows (a.rows.flatMap fun r =>
        (b.rows.filter fun s => relates Value.equals a.head.vars b.head.vars r s).map
          fun s => r ++ s) := by
  refine ⟨_, join_eq ha hb, rfl, rfl, (nestedLoop_equals ha hb).symm, ?_⟩
  refine (perm_joined a b).trans (List.Perm.of_eq (List.flatMap_congr fun r hr => ?_))
  refine congrArg _ (List.filter_congr fun s hs => ?_)
  exact (relates_equals (ha.comparable r hr) (hb.comparable s hs)).symm

/-- Two columns of the first batch have one label, and so have two of the second. Rows
that disagree on a shared variable by themselves have no partner, and nothing and
`unbound` are values like others. -/
theorem join_eq_nestedLoop_repeatedColumns :
    let a : Batch := ⟨Head.ofVars ["x", "x", "y"],
      [[.int 1, .bool true, .null], [.int 1, .int 2, .null], [.unbound, .unbound, .text "p"]]⟩
    let b : Batch := ⟨Head.ofVars ["z", "x", "z"],
      [[.int 7, .bool true, .int 7], [.null, .unbound, .null], [.int 2, .int 1, .int 3],
        [.null, .int 2, .null]]⟩
    ∃ j, a.join b = .ok j ∧ j.head.vars = ["x", "x", "y", "z", "x", "z"] ∧
      j.rows =
        [[.int 1, .bool true, .null, .int 7, .bool true, .int 7],
          [.unbound, .unbound, .text "p", .null, .unbound, .null],
          [.int 1, .bool true, .null, .int 2, .int 1, .int 3]] := by
  intro a b
  have ha : a.Regular := ⟨by unfold WellShaped; decide, by decide⟩
  have hb : b.Regular := ⟨by unfold WellShaped; decide, by decide⟩
  obtain ⟨j, hjoin, -, hvars, hrows, -⟩ := join_eq_nestedLoop ha hb
  refine ⟨j, hjoin, hvars, ?_⟩
  rw [hrows]
  rfl

/-- A float that is not a number is found as a key, although it does not equal itself, and as a
repeated cell it disagrees with itself, although it is one object. So no reading of equal cells
makes the join a nested loop. -/
theorem join_ne_nestedLoop_notANumber :
    let x : Value := .float (0 / 0)
    let once : Batch := ⟨Head.ofVars ["x"], [[x]]⟩
    let twice : Batch := ⟨Head.ofVars ["x"], [[x], [x]]⟩
    let twoColumns : Batch := ⟨Head.ofVars ["x", "x"], [[x, x]]⟩
    (once.join once).map Batch.rows ≠ .ok (nestedLoop Value.equals once once) ∧
      (twoColumns.join once).map Batch.rows ≠ .ok (nestedLoop Value.equals twoColumns once) ∧
      (twoColumns.join twice).map Batch.rows ≠ .ok (nestedLoop Value.same twoColumns twice) := by
  refine ⟨fun h => ?_, fun h => ?_, fun h => ?_⟩ <;>
  · have hlength := congrArg (Except.map List.length) h
    revert hlength
    decide +kernel

end Batch

end Conjunctive
