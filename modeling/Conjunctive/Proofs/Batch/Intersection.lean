import Conjunctive.Proofs.Batch.Tally

/-!
# Bag intersections

The rows of an intersection are those of a smallest batch, kept within what all the
batches have in common (`isIntersection_of_intersect`), so that each row occurs as often
as in the batch that has it least often, whatever the order of the batches.

The rows of a node that have partners in all of its children are found as the
intersection of the parts that have partners in a child each. For parts that are
cut out by tests on what the rows denote, the bag intersection is the part that
passes all the tests: a row occurs in every part all its times or not at all.
-/

namespace Conjunctive

namespace Batch

open Row

/-- The rows of a batch are some rows of a smallest of some batches, and each row occurs
in it as often as in the one of these that has it least often. -/
structure IsIntersection (batches : List Batch) (c : Batch) : Prop where
  min_count : ∀ r : Row, (batches.map fun b => r.count b.rows).min? = some (r.count c.rows)
  sublist : ∃ least ∈ batches, (∀ b ∈ batches, least.rows.length ≤ b.rows.length) ∧
    c.rows.Sublist least.rows

/-- The order of the batches makes no difference. -/
theorem IsIntersection.perm {bs bs' : List Batch} {c : Batch} (h : IsIntersection bs c)
    (hperm : bs.Perm bs') : IsIntersection bs' c where
  min_count := by
    intro r
    have hmin := h.min_count r
    rw [List.min?_eq_some_iff] at hmin ⊢
    simpa only [(hperm.map _).mem_iff] using hmin
  sublist := by
    obtain ⟨least, hleast, hle, hsublist⟩ := h.sublist
    exact ⟨least, hperm.mem_iff.mp hleast, fun b hb => hle b (hperm.mem_iff.mpr hb), hsublist⟩

theorem IsIntersection.count_eq {bs : List Batch} {c c' : Batch} (h : IsIntersection bs c)
    (h' : IsIntersection bs c') (r : Row) : r.count c.rows = r.count c'.rows :=
  Option.some.inj ((h.min_count r).symm.trans (h'.min_count r))

theorem isIntersection_singleton (b : Batch) : IsIntersection [b] b where
  min_count := fun _ => rfl
  sublist := ⟨b, by simp, by simp, List.Sublist.refl _⟩

/-! ### The order of the sizes -/

theorem bySize_perm (bs : List Batch) : (bySize bs).Perm bs := List.mergeSort_perm _ _

theorem length_le_of_bySize_eq {bs larger : List Batch} {least : Batch}
    (h : bySize bs = least :: larger) : ∀ b ∈ least :: larger,
      least.rows.length ≤ b.rows.length := by
  have hordered : (bySize bs).Pairwise fun a b => a.rows.length ≤ b.rows.length := by
    refine (List.pairwise_mergeSort ?_ ?_ bs).imp fun hle => of_decide_eq_true hle
    · intro a b c hab hbc
      exact decide_eq_true (Nat.le_trans (of_decide_eq_true hab) (of_decide_eq_true hbc))
    · intro a b
      simpa using Nat.le_total a.rows.length b.rows.length
  rw [h, List.pairwise_cons] at hordered
  intro b hb
  rcases List.mem_cons.mp hb with rfl | hb
  · exact Nat.le_refl _
  · exact hordered.1 b hb

/-! ### The budget for the rows -/

/-- Kept within what they have in common with all larger batches, the rows of the
smallest batch make up an intersection. -/
theorem isIntersection_of_intersectOrdered {head : Head} {least c : Batch} {larger : List Batch}
    (hle : ∀ b ∈ least :: larger, least.rows.length ≤ b.rows.length)
    (h : intersectOrdered head (least :: larger) = .ok c) :
    c.head = head ∧ IsIntersection (least :: larger) c := by
  rw [intersectOrdered] at h
  split_ifs at h with hempty
  · cases h
    have hrows : least.rows = [] := Batch.isEmpty_iff.mp hempty
    refine ⟨rfl, fun r => ?_, least, by simp, hle, List.nil_sublist _⟩
    rw [List.map_cons, List.min?_cons', hrows, count_nil, List.foldl_fixed' Nat.zero_min]
    rfl
  · obtain ⟨tally, htally, h⟩ := bind_eq_ok_iff.mp h
    obtain ⟨-, rfl⟩ := tally_eq_ok_iff.mp htally
    obtain ⟨budget, hbudget, h⟩ := bind_eq_ok_iff.mp h
    cases h
    refine ⟨rfl, fun r => ?_, least, by simp, hle, keepWithin_sublist _ _⟩
    have hmin : ((least :: larger).map fun b => r.count b.rows).min? = some (budget.times r) := by
      rw [List.map_cons, List.min?_cons', times_commonTally (Tally.positive_ofRows _) hbudget,
        Tally.times_ofRows]
    have hlast : budget.times r ≤ r.count least.rows :=
      (List.min?_eq_some_iff.mp hmin).2 _ (by simp)
    rw [hmin, count_keepWithin, Nat.min_eq_left hlast]

theorem isIntersection_of_intersect {first c : Batch} {others : List Batch}
    (h : intersect (first :: others) = .ok c) :
    c.head = first.head ∧ IsIntersection (first :: others) c := by
  cases others with
  | nil =>
      cases h
      exact ⟨rfl, isIntersection_singleton first⟩
  | cons second others =>
      rw [intersect] at h
      · cases hordered : bySize (first :: second :: others) with
        | nil =>
            have hperm := bySize_perm (first :: second :: others)
            rw [hordered] at hperm
            exact absurd hperm.symm.eq_nil (List.cons_ne_nil _ _)
        | cons least larger =>
            rw [hordered] at h
            obtain ⟨hhead, hintersection⟩ :=
              isIntersection_of_intersectOrdered (length_le_of_bySize_eq hordered) h
            exact ⟨hhead, hintersection.perm (hordered ▸ bySize_perm _)⟩
      · simp

/-! ### Rows that can be looked up -/

theorem exists_commonTally_eq_ok {bs : List Batch}
    (h : ∀ b ∈ bs, ∀ r ∈ b.rows, ∀ v ∈ r, v.isKey = true) (common : Tally) :
    ∃ t, commonTally common bs = .ok t := by
  induction bs generalizing common with
  | nil => exact ⟨common, rfl⟩
  | cons b bs ih =>
      obtain ⟨hb, hbs⟩ := List.forall_mem_cons.mp h
      have htally := tally_eq_ok_iff.mpr ⟨checkKeys_of_isKey hb, rfl⟩
      have hstep : commonTally common (b :: bs) =
          if (common.meet (Tally.ofRows b.rows)).isEmpty then
            .ok (common.meet (Tally.ofRows b.rows))
          else commonTally (common.meet (Tally.ofRows b.rows)) bs := by
        rw [commonTally, htally]
        rfl
      rw [hstep]
      split_ifs
      · exact ⟨_, rfl⟩
      · exact ih hbs _

/-- Batches whose rows can be looked up have an intersection. -/
theorem exists_intersect_eq_ok {bs : List Batch}
    (h : ∀ b ∈ bs, ∀ r ∈ b.rows, ∀ v ∈ r, v.isKey = true) : ∃ c, intersect bs = .ok c := by
  have hordered : ∀ (head : Head) (ordered : List Batch),
      (∀ b ∈ ordered, ∀ r ∈ b.rows, ∀ v ∈ r, v.isKey = true) →
      ∃ c, intersectOrdered head ordered = .ok c := by
    intro head ordered hkeys
    cases ordered with
    | nil => exact ⟨_, rfl⟩
    | cons least larger =>
        obtain ⟨hleast, hlarger⟩ := List.forall_mem_cons.mp hkeys
        obtain ⟨budget, hbudget⟩ := exists_commonTally_eq_ok hlarger (Tally.ofRows least.rows)
        rw [intersectOrdered]
        split_ifs
        · exact ⟨_, rfl⟩
        · have htally := tally_eq_ok_iff.mpr ⟨checkKeys_of_isKey hleast, rfl⟩
          exact ⟨_, bind_eq_ok_iff.mpr ⟨_, htally, bind_eq_ok_iff.mpr ⟨budget, hbudget, rfl⟩⟩⟩
  match bs, h with
  | [], _ => exact ⟨_, rfl⟩
  | [b], _ => exact ⟨b, rfl⟩
  | first :: second :: others, h =>
      refine hordered first.head (bySize (first :: second :: others)) fun b hb => h b ?_
      exact (bySize_perm _).mem_iff.mp hb

/-- Each row occurs in the intersection as often as in the batch that has it least often.
The head is that of the first batch, the rows are some of those of a smallest batch, in
their order, and the order of the batches changes no more than these. There is an
intersection unless a row holds what is no key. -/
theorem count_intersect (first : Batch) (others : List Batch) :
    ((∀ b ∈ first :: others, ∀ r ∈ b.rows, ∀ v ∈ r, v.isKey = true) →
      ∃ c, intersect (first :: others) = .ok c) ∧
    ∀ c, intersect (first :: others) = .ok c →
      c.head = first.head ∧
      (∀ r : Row, ((first :: others).map fun b => r.count b.rows).min? = some (r.count c.rows)) ∧
      (∃ least ∈ first :: others,
        (∀ b ∈ first :: others, least.rows.length ≤ b.rows.length) ∧
          c.rows.Sublist least.rows) ∧
      ∀ order c', (first :: others).Perm order → intersect order = .ok c' →
        ∀ r : Row, r.count c'.rows = r.count c.rows := by
  refine ⟨exists_intersect_eq_ok, fun c hc => ?_⟩
  obtain ⟨hhead, hintersection⟩ := isIntersection_of_intersect hc
  refine ⟨hhead, hintersection.min_count, hintersection.sublist, ?_⟩
  intro order c' hperm hc' r
  cases order with
  | nil => exact absurd hperm.eq_nil (List.cons_ne_nil _ _)
  | cons first' others' =>
      obtain ⟨-, hintersection'⟩ := isIntersection_of_intersect hc'
      exact (hintersection'.perm hperm.symm).count_eq hintersection r

/-- Truth values count as numbers, so the row with the number 1 occurs two, three and
two times. -/
theorem count_intersect_truthValues :
    let a : Batch := ⟨Head.ofVars ["x"], [[.int 1], [.null], [.bool true], [.text "p"]]⟩
    let b : Batch := ⟨Head.ofVars ["y"], [[.bool true], [.null], [.int 1], [.int 1], [.null]]⟩
    let c : Batch := ⟨Head.ofVars ["z"], [[.text "p"], [.bool true], [.int 1]]⟩
    ∃ d, intersect [a, b, c] = .ok d ∧ d.head.vars = ["x"] ∧ Row.count [.int 1] d.rows = 2 ∧
      Row.count [.text "p"] d.rows = 0 ∧
      ∃ d', intersect [c, b, a] = .ok d' ∧ Row.count [.int 1] d'.rows = 2 := by
  intro a b c
  obtain ⟨hexists, hspec⟩ := count_intersect a [b, c]
  obtain ⟨d, hd⟩ := hexists (by decide)
  obtain ⟨hhead, hcount, -, hperm⟩ := hspec d hd
  have hone : Row.count [.int 1] d.rows = 2 :=
    Option.some.inj ((hcount [.int 1]).symm.trans (by decide : _ = some 2))
  obtain ⟨d', hd'⟩ := (count_intersect c [b, a]).1 (by decide)
  refine ⟨d, hd, congrArg Head.vars hhead, hone, ?_, d', hd', ?_⟩
  · exact Option.some.inj ((hcount [.text "p"]).symm.trans (by decide : _ = some 0))
  · rw [hperm [c, b, a] d' (List.reverse_perm [a, b, c]).symm hd', hone]

end Batch

/-! ### Parts of one batch -/

namespace Row

/-- A test that depends on what a row denotes. -/
def Respects (p : Row → Bool) : Prop := ∀ r s : Row, r.same s = true → p r = p s

theorem Respects.all {tests : List (Row → Bool)} (h : ∀ p ∈ tests, Respects p) :
    Respects fun r => tests.all (· r) := by
  intro r s hrs
  rw [Bool.eq_iff_iff, List.all_eq_true, List.all_eq_true]
  exact forall₂_congr fun p hp => by rw [h p hp r s hrs]

theorem count_filter {p : Row → Bool} (hp : Respects p) (r : Row) (rows : List Row) :
    r.count (rows.filter p) = if p r then r.count rows else 0 := by
  rw [count, List.countP_filter]
  split_ifs with hr
  · apply List.countP_congr
    intro s _
    rw [Bool.and_eq_true]
    constructor
    · exact And.left
    · intro h
      exact ⟨h, hp r s h ▸ hr⟩
  · rw [List.countP_eq_zero]
    intro s _ h
    rw [Bool.and_eq_true] at h
    exact hr (hp r s h.1 ▸ h.2)

theorem count_pos_of_mem {r : Row} {rows : List Row} (h : r ∈ rows) : 0 < r.count rows :=
  List.countP_pos_iff.mpr ⟨r, h, same_refl r⟩

/-- Some rows, with each all its times or not at all, are cut out by a test. -/
theorem eq_filter_of_count {p : Row → Bool} (hp : Respects p) {rows rows' : List Row}
    (hsublist : rows'.Sublist rows)
    (hcount : ∀ r : Row, r.count rows' = if p r then r.count rows else 0) :
    rows' = rows.filter p := by
  have hpass : rows'.filter p = rows' := by
    rw [List.filter_eq_self]
    intro r hr
    by_contra hfail
    have hpos := count_pos_of_mem hr
    rw [hcount, if_neg hfail] at hpos
    exact Nat.lt_irrefl 0 hpos
  apply eq_of_sublist_of_countP (hpass ▸ hsublist.filter p)
  intro r _
  refine ⟨r.same, same_refl r, ?_⟩
  change r.count rows' = r.count (rows.filter p)
  rw [hcount, count_filter hp]

end Row

namespace Batch

open Row

/-- The parts of some rows under a head that pass one of several tests each. -/
def parts (head : Head) (rows : List Row) (tests : List (Row → Bool)) : List Batch :=
  tests.map fun p => ⟨head, rows.filter p⟩

variable {head : Head} {rows : List Row}

/-- The least of the numbers of occurrences in the parts is all of them or none. -/
theorem IsIntersection.count_of_parts {tests : List (Row → Bool)}
    (htests : ∀ p ∈ tests, Respects p) {c : Batch}
    (h : IsIntersection (parts head rows tests) c) (r : Row) :
    r.count c.rows = if tests.all (· r) then r.count rows else 0 := by
  obtain ⟨hmem, hle⟩ := List.min?_eq_some_iff.mp (h.min_count r)
  rw [parts, List.map_map] at hmem hle
  have hcount : ∀ p ∈ tests, r.count (rows.filter p) = if p r then r.count rows else 0 :=
    fun p hp => count_filter (htests p hp) r rows
  split_ifs with hall
  · obtain ⟨p, hp, heq⟩ := List.mem_map.mp hmem
    exact heq.symm.trans ((hcount p hp).trans (if_pos (List.all_eq_true.mp hall p hp)))
  · obtain ⟨p, hp, hfail⟩ : ∃ p ∈ tests, ¬ p r = true := by
      simpa [List.all_eq_true] using hall
    have hnone := hle _ (List.mem_map_of_mem hp)
    rw [Function.comp_apply, hcount p hp, if_neg hfail] at hnone
    exact Nat.le_zero.mp hnone

theorem regular_filter (h : Regular ⟨head, rows⟩) (p : Row → Bool) :
    Regular ⟨head, rows.filter p⟩ where
  wellShaped := fun r hr => h.wellShaped r (List.mem_filter.mp hr).1
  comparable := fun r hr => h.comparable r (List.mem_filter.mp hr).1

/-- The intersection of parts is the part that passes all the tests. -/
theorem intersect_parts (hreg : Regular ⟨head, rows⟩) {tests : List (Row → Bool)}
    (hne : tests ≠ []) (htests : ∀ p ∈ tests, Respects p) :
    intersect (parts head rows tests) =
      .ok ⟨head, rows.filter fun r => tests.all (· r)⟩ := by
  have hkeys : ∀ b ∈ parts head rows tests, ∀ r ∈ b.rows, ∀ v ∈ r, v.isKey = true := by
    intro b hb
    obtain ⟨p, -, rfl⟩ := List.mem_map.mp hb
    exact (regular_filter hreg p).isKey
  obtain ⟨c, hc⟩ := exists_intersect_eq_ok hkeys
  obtain ⟨p, tests, rfl⟩ := List.exists_cons_of_ne_nil hne
  obtain ⟨hhead, hintersection⟩ := isIntersection_of_intersect hc
  obtain ⟨least, hleast, -, hsublist⟩ := hintersection.sublist
  obtain ⟨q, -, rfl⟩ : ∃ q ∈ p :: tests, Batch.mk head (rows.filter q) = least :=
    List.mem_map.mp hleast
  have hrows : c.rows = rows.filter fun r => (p :: tests).all (· r) :=
    eq_filter_of_count (Respects.all htests) (hsublist.trans List.filter_sublist)
      (hintersection.count_of_parts htests)
  obtain ⟨chead, crows⟩ := c
  dsimp only at hhead hrows
  rw [hc, hhead, hrows]

end Batch

end Conjunctive
