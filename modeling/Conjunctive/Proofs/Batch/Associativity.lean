import Conjunctive.Proofs.Batch.Join

/-!
# Joining three batches

Some labelled rows agree if every variable that labels two or more of them has
one value in all its columns. For two rows this is compatibility. Of three rows
two are compared first and the third with both of them side by side; whichever
two these are, the same variables are compared in the end, although a variable
that labels one of the rows twice is compared only once it is shared. Hence a
join of three batches has the same bag of rows in either bracketing.
-/

namespace Conjunctive

namespace Row

theorem oneValue_of_subset {xs ys : List Value} (hsub : xs ⊆ ys) (h : oneValue ys = true) :
    oneValue xs = true := by
  rw [oneValue_iff] at h ⊢
  exact fun x hx y hy => h x (hsub hx) y (hsub hy)

theorem cellsOf_append {vars : List String} {r : Row} (hr : r.length = vars.length)
    (vars' : List String) (v : String) (s : Row) :
    cellsOf (vars ++ vars') v (r ++ s) = cellsOf vars v r ++ cellsOf vars' v s := by
  rw [cellsOf, List.zip_append hr.symm, List.filterMap_append]
  rfl

theorem cellsOf_eq_nil {vars : List String} {v : String} (hv : v ∉ vars) (r : Row) :
    cellsOf vars v r = [] := by
  rw [List.eq_nil_iff_forall_not_mem]
  intro x hx
  exact hv (List.of_mem_zip (mem_cellsOf.mp hx)).1

/-- Whether each variable that labels at least two of some rows has one value in all of
its columns. -/
def agree (parts : List (List String × Row)) : Bool :=
  (parts.flatMap Prod.fst).all fun v =>
    decide (parts.countP (fun p => p.1.contains v) < 2) ||
      oneValue (parts.flatMap fun p => cellsOf p.1 v p.2)

theorem agree_iff {parts : List (List String × Row)} : agree parts = true ↔
    ∀ v, 2 ≤ parts.countP (fun p => p.1.contains v) →
      oneValue (parts.flatMap fun p => cellsOf p.1 v p.2) = true := by
  rw [agree, List.all_eq_true]
  constructor
  · intro h v hv
    obtain ⟨p, hp, hpv⟩ := List.countP_pos_iff.mp (Nat.lt_of_lt_of_le Nat.zero_lt_two hv)
    have hmem : v ∈ parts.flatMap Prod.fst :=
      List.mem_flatMap.mpr ⟨p, hp, List.contains_iff_mem.mp hpv⟩
    have hcase := h v hmem
    rw [Bool.or_eq_true, decide_eq_true_iff] at hcase
    exact hcase.resolve_left (Nat.not_lt.mpr hv)
  · intro h v _
    rw [Bool.or_eq_true, decide_eq_true_iff]
    by_cases hv : 2 ≤ parts.countP (fun p => p.1.contains v)
    · exact Or.inr (h v hv)
    · exact Or.inl (Nat.not_le.mp hv)

variable {u v w : List String} {r s t : Row}

/-- A variable that labels two of three rows labels the first two, or the third and one
of the others. -/
theorem agree_three_iff : agree [(u, r), (v, s), (w, t)] = true ↔
    ∀ x, (x ∈ u ∧ x ∈ v ∨ (x ∈ u ∨ x ∈ v) ∧ x ∈ w) →
      oneValue (cellsOf u x r ++ cellsOf v x s ++ cellsOf w x t) = true := by
  rw [agree_iff]
  apply forall_congr'
  intro x
  have hcells : ([(u, r), (v, s), (w, t)].flatMap fun p => cellsOf p.1 x p.2) =
      cellsOf u x r ++ cellsOf v x s ++ cellsOf w x t := by simp
  rw [hcells]
  apply imp_congr_left
  by_cases hu : x ∈ u <;> by_cases hv : x ∈ v <;> by_cases hw : x ∈ w <;>
    simp [hu, hv, hw]

/-- The first two rows are compared before the third. -/
theorem agree_eq_left (hr : r.length = u.length) (w : List String) (t : Row) :
    agree [(u, r), (v, s), (w, t)] =
      (compatible u v r s && compatible (u ++ v) w (r ++ s) t) := by
  rw [Bool.eq_iff_iff, Bool.and_eq_true, agree_three_iff, compatible_iff, compatible_iff]
  simp only [cellsOf_append hr, List.mem_append]
  constructor
  · intro h
    refine ⟨fun x hu hv => ?_, fun x huv hw => h x (Or.inr ⟨huv, hw⟩)⟩
    exact oneValue_of_subset (List.subset_append_left _ _) (h x (Or.inl ⟨hu, hv⟩))
  · rintro ⟨hfirst, hall⟩ x hx
    by_cases hw : x ∈ w
    · exact hall x (hx.elim (fun h => Or.inl h.1) And.left) hw
    · obtain ⟨hu, hv⟩ := hx.resolve_right fun h => hw h.2
      rw [cellsOf_eq_nil hw, List.append_nil]
      exact hfirst x hu hv

/-- The last two rows are compared before the first. -/
theorem agree_eq_right (hs : s.length = v.length) (u : List String) (r : Row) :
    agree [(u, r), (v, s), (w, t)] =
      (compatible v w s t && compatible u (v ++ w) r (s ++ t)) := by
  rw [Bool.eq_iff_iff, Bool.and_eq_true, agree_three_iff, compatible_iff, compatible_iff]
  simp only [cellsOf_append hs, List.mem_append, List.append_assoc]
  constructor
  · intro h
    refine ⟨fun x hv hw => ?_, fun x hu hvw => h x ?_⟩
    · exact oneValue_of_subset (List.subset_append_right _ _) (h x (Or.inr ⟨Or.inr hv, hw⟩))
    · exact hvw.imp (fun hv => ⟨hu, hv⟩) fun hw => ⟨Or.inl hu, hw⟩
  · rintro ⟨hlast, hall⟩ x hx
    by_cases hu : x ∈ u
    · exact hall x hu (hx.imp And.right And.right)
    · obtain ⟨huv, hw⟩ := hx.resolve_left fun h => hu h.1
      rw [cellsOf_eq_nil hu, List.nil_append]
      exact hlast x (huv.resolve_left hu) hw

end Row

namespace Batch

open Row

/-- The rows of three batches side by side that agree, by a nested loop. -/
def joinedThree (a b c : Batch) : List Row :=
  a.rows.flatMap fun r => b.rows.flatMap fun s =>
    (c.rows.filter fun t => agree [(a.head.vars, r), (b.head.vars, s), (c.head.vars, t)]).map
      fun t => r ++ s ++ t

theorem perm_joined_left {a b : Batch} (ha : a.WellShaped) (c : Batch) :
    List.Perm (joined ⟨a.head.append b.head, a.joined b⟩ c) (joinedThree a b c) := by
  refine (perm_joined _ c).trans (((perm_joined a b).flatMap_right _).trans ?_)
  rw [List.flatMap_assoc]
  refine List.Perm.of_eq (List.flatMap_congr fun r hr => ?_)
  rw [List.flatMap_map, flatMap_filter_map]
  simp only [agree_eq_left (ha r hr)]
  rfl

theorem perm_joined_right (a : Batch) {b : Batch} (hb : b.WellShaped) (c : Batch) :
    List.Perm (a.joined ⟨b.head.append c.head, b.joined c⟩) (joinedThree a b c) := by
  refine (perm_joined a _).trans (List.Perm.flatMap_left _ fun r _ => ?_)
  refine (((perm_joined b c).filter _).map _).trans ?_
  rw [List.filter_flatMap, List.map_flatMap]
  refine List.Perm.of_eq (List.flatMap_congr fun s hs => ?_)
  rw [List.filter_map, List.filter_filter, List.map_map]
  simp only [agree_eq_right (hb s hs), List.append_assoc, Bool.and_comm]
  rfl

/-- Three batches may be joined in either bracketing: the columns are the same, and each
row of either join puts together three rows that agree, as often as there are such rows. -/
theorem join_assoc {a b c : Batch} (ha : a.Regular) (hb : b.Regular) (hc : c.Regular) :
    ∃ ab bc left right, a.join b = .ok ab ∧ ab.join c = .ok left ∧
      b.join c = .ok bc ∧ a.join bc = .ok right ∧
      left.head = right.head ∧ left.head.vars = a.head.vars ++ b.head.vars ++ c.head.vars ∧
      List.Perm left.rows right.rows ∧
      List.Perm left.rows (a.rows.flatMap fun r => b.rows.flatMap fun s =>
        (c.rows.filter fun t =>
          agree [(a.head.vars, r), (b.head.vars, s), (c.head.vars, t)]).map
            fun t => r ++ s ++ t) := by
  have hleft := perm_joined_left (b := b) ha.wellShaped c
  have hright := perm_joined_right a hb.wellShaped c
  refine ⟨_, _, _, _, join_eq ha hb, join_eq (ha.joined hb) hc, join_eq hb hc,
    join_eq ha (hb.joined hc), ?_, rfl, hleft.trans hright.symm, hleft⟩
  exact congrArg (Head.mk a.head.predicate) (List.append_assoc _ _ _)

/-- The label `x` is twice in the first batch and shared with the third only, `y` is twice
in the second and shared with nothing. In either bracketing one row of the first drops
out, and no row of the second. -/
theorem join_assoc_repeatedColumns :
    let a : Batch := ⟨Head.ofVars ["x", "x"], [[.int 1, .bool true], [.int 1, .int 2]]⟩
    let b : Batch := ⟨Head.ofVars ["y", "z", "y"],
      [[.int 5, .null, .int 6], [.int 7, .text "q", .int 7], [.int 8, .unbound, .int 8]]⟩
    let c : Batch := ⟨Head.ofVars ["z", "x"], [[.null, .int 1], [.text "q", .int 1]]⟩
    ∃ ab bc left right, a.join b = .ok ab ∧ ab.join c = .ok left ∧
      b.join c = .ok bc ∧ a.join bc = .ok right ∧
      left.head.vars = ["x", "x", "y", "z", "y", "z", "x"] ∧ List.Perm left.rows right.rows ∧
      List.Perm left.rows
        [[.int 1, .bool true, .int 5, .null, .int 6, .null, .int 1],
          [.int 1, .bool true, .int 7, .text "q", .int 7, .text "q", .int 1]] := by
  intro a b c
  have ha : a.Regular := ⟨by unfold WellShaped; decide, by decide⟩
  have hb : b.Regular := ⟨by unfold WellShaped; decide, by decide⟩
  have hc : c.Regular := ⟨by unfold WellShaped; decide, by decide⟩
  obtain ⟨ab, bc, left, right, hab, hleft, hbc, hright, -, hvars, hperm, hrows⟩ :=
    join_assoc ha hb hc
  refine ⟨ab, bc, left, right, hab, hleft, hbc, hright, hvars, hperm, hrows.trans ?_⟩
  exact List.Perm.of_eq rfl

/-- A float that is not a number: the join of two single cells has it twice in a row, which
disagrees with itself and is dropped when it is indexed, but not when it probes. -/
theorem join_assoc_notANumber :
    let x : Value := .float (0 / 0)
    let once : Batch := ⟨Head.ofVars ["x"], [[x]]⟩
    let twice : Batch := ⟨Head.ofVars ["x"], [[x], [x]]⟩
    ((once.join once >>= fun j => j.join twice).map fun j => j.rows.length) = .ok 0 ∧
      ((once.join twice >>= fun j => once.join j).map fun j => j.rows.length) = .ok 2 := by
  decide +kernel

end Batch

end Conjunctive
