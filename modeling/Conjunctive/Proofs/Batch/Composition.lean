import Conjunctive.Proofs.Batch.Associativity
import Conjunctive.Proofs.Batch.Weight
import Mathlib.Data.List.Permutation

/-!
# Projections in a row and before a join

To look a variable up in a restricted row is to look it up in the row itself, unless
the restriction has dropped it (`Row.lookup_restrict`). So of two projections in a row
only the second matters, if the first keeps what the second needs.

A projection of a join that keeps all its variables drops columns only where a variable
labels several. If these agree in every row, the rows of a further batch that are
compatible with a row are compatible with the restricted row too, and no later
projection sees a difference.
-/

namespace Conjunctive

/-- A variable that labels no column is not found. -/
theorem lookup_zip_eq_none {vars : List String} {v : String} (hv : v ∉ vars) (r : Row) :
    List.lookup v (vars.zip r) = none := by
  rw [← head?_cellsOf, Row.cellsOf_eq_nil hv, List.head?_nil]

theorem filter_contains_congr {vars vars' vs : List String}
    (h : ∀ v ∈ vs, (v ∈ vars ↔ v ∈ vars')) :
    vs.filter vars.contains = vs.filter vars'.contains := by
  apply List.filter_congr
  intro v hv
  rw [Bool.eq_iff_iff, List.contains_iff_mem, List.contains_iff_mem]
  exact h v hv

/-- The kept variables that label a column. -/
theorem mem_filter_contains {vars keep : List String} {v : String} :
    v ∈ keep.filter vars.contains ↔ v ∈ keep ∧ v ∈ vars := by
  rw [List.mem_filter, List.contains_iff_mem]

namespace Row

theorem lookup_restrict {vars keep : List String} {r : Row} (h : r.Reaches vars keep)
    (v : String) : List.lookup v ((keep.filter vars.contains).zip (r.restrict vars keep)) =
      if v ∈ keep then List.lookup v (vars.zip r) else none := by
  induction keep with
  | nil => rfl
  | cons w keep ih =>
      obtain ⟨hw, hkeep⟩ := reaches_cons_iff.mp h
      have hrest := ih hkeep
      by_cases hmem : w ∈ vars
      · obtain ⟨x, hx⟩ := Option.isSome_iff_exists.mp (hw hmem)
        rw [List.filter_cons_of_pos (by simpa using hmem), restrict, List.filterMap_cons, hx,
          ← restrict, List.zip_cons_cons, List.lookup_cons]
        by_cases hvw : v = w
        · subst hvw
          simp [hx]
        · rw [beq_eq_false_iff_ne.mpr hvw]
          simpa [hvw] using hrest
      · have hnone := lookup_zip_eq_none hmem r
        rw [List.filter_cons_of_neg (by simpa using hmem), restrict, List.filterMap_cons, hnone,
          ← restrict]
        by_cases hvw : v = w
        · subst hvw
          simp [hrest, hnone]
        · simpa [hvw] using hrest

variable {vars ws vs : List String} {r : Row}

/-- A variable that the first of two restrictions keeps is there for the second. -/
theorem reaches_restrict (h : r.Reaches vars ws) (vs : List String) :
    (r.restrict vars ws).Reaches (ws.filter vars.contains) vs := by
  intro v _ hv
  obtain ⟨hws, hvars⟩ := mem_filter_contains.mp hv
  rw [lookup_restrict h, if_pos hws]
  exact h v hws hvars

theorem restrict_restrict (h : r.Reaches vars ws) (hkept : ∀ v ∈ vs, v ∈ vars → v ∈ ws) :
    (r.restrict vars ws).restrict (ws.filter vars.contains) vs = r.restrict vars vs := by
  apply List.filterMap_congr
  intro v hv
  rw [lookup_restrict h]
  split_ifs with hws
  · rfl
  · exact (lookup_zip_eq_none (fun hvars => hws (hkept v hv hvars)) r).symm

/-- A row whose columns agree wherever they have one label has the values of an
assignment. -/
theorem exists_eq_map_of_oneValue (hr : r.length = vars.length)
    (hone : ∀ v ∈ vars, oneValue (cellsOf vars v r) = true) :
    ∃ σ : Assignment, r.denotation = vars.map σ := by
  refine ⟨fun v => ((cellsOf vars v r).head?.map Value.denotation).getD .nothing, ?_⟩
  refine List.ext_getElem (by simpa using hr) fun i hi hi' => ?_
  rw [denotation_length] at hi
  rw [List.length_map] at hi'
  have hmem : r[i] ∈ cellsOf vars vars[i] r := by
    rw [mem_cellsOf, List.mem_iff_getElem?]
    exact ⟨i, List.getElem?_zip_eq_some.mpr
      ⟨List.getElem?_eq_getElem hi', List.getElem?_eq_getElem hi⟩⟩
  obtain ⟨y, ys, hys⟩ := List.exists_cons_of_ne_nil (List.ne_nil_of_mem hmem)
  have heq := oneValue_iff.mp (hone vars[i] (List.getElem_mem hi')) r[i] hmem y (by simp [hys])
  simpa [ denotation, hys] using heq

/-! ### Side by side with another row -/

variable {keep vars' : List String} {σ : Assignment}

/-- A restriction that keeps all variables of a row keeps its partners. -/
theorem compatible_restrict (hr : r.denotation = vars.map σ) (hkeep : ∀ v ∈ vars, v ∈ keep)
    (t : Row) : compatible (keep.filter vars.contains) vars' (r.restrict vars keep) t =
      compatible vars vars' r t := by
  have hmem : ∀ v, v ∈ keep.filter vars.contains ↔ v ∈ vars := fun v =>
    mem_filter_contains.trans ⟨And.right, fun hv => ⟨hkeep v hv, hv⟩⟩
  rw [Bool.eq_iff_iff, compatible_iff_values, compatible_iff_values, hr,
    Batch.denotation_restrict hr]
  simp only [List.mem_append, mem_zip_map_iff, hmem]

/-- A restriction that keeps all variables keeps the first cell of each of them, also
where another row goes on. -/
theorem restrict_append (hr : r.denotation = vars.map σ) (hkeep : ∀ v ∈ vars, v ∈ keep)
    (t : Row) (vs : List String) :
    restrict (keep.filter vars.contains ++ vars') vs (r.restrict vars keep ++ t) =
      restrict (vars ++ vars') vs (r ++ t) := by
  have hkept : Row.denotation (r.restrict vars keep) = (keep.filter vars.contains).map σ :=
    Batch.denotation_restrict hr
  have hlength : vars.length = r.length := by
    simpa using (congrArg List.length hr).symm
  have hlength' : (keep.filter vars.contains).length = (r.restrict vars keep).length := by
    simpa using (congrArg List.length hkept).symm
  apply List.filterMap_congr
  intro v _
  rw [List.zip_append hlength, List.zip_append hlength', List.lookup_append, List.lookup_append,
    lookup_restrict (reaches_of_length hlength.symm keep)]
  split_ifs with hv
  · rfl
  · rw [lookup_zip_eq_none fun h => hv (hkeep v h)]

end Row

namespace Batch

open Row

/-! ### Two projections in a row -/

theorem restricted_restricted {q : Batch} {ws vs : List String}
    (hreach : ∀ r ∈ q.rows, r.Reaches q.head.vars ws)
    (hkept : ∀ v ∈ vs, v ∈ q.head.vars → v ∈ ws) :
    (q.restricted ws).restricted vs = q.restricted vs := by
  have hhead : vs.filter (ws.filter q.head.vars.contains).contains =
      vs.filter q.head.vars.contains := by
    refine filter_contains_congr fun v hv => mem_filter_contains.trans ⟨And.right, fun h => ?_⟩
    exact ⟨hkept v hv h, h⟩
  have hrows : (q.rows.map (Row.restrict q.head.vars ws)).map
      (Row.restrict (ws.filter q.head.vars.contains) vs) =
      q.rows.map (Row.restrict q.head.vars vs) := by
    rw [List.map_map]
    exact List.map_congr_left fun r hr => restrict_restrict (hreach r hr) hkept
  rw [restricted, restricted, restricted, hhead, hrows]

/-- Of two projections in a row only the second matters, if the first keeps all variables
that the second needs. -/
theorem project_project {q p : Batch} {ws vs : List String}
    (hkept : ∀ v ∈ vs, v ∈ q.head.vars → v ∈ ws) (h : q.project ws = .ok p) :
    q.project vs = .ok (q.restricted vs) ∧ p.project vs = .ok (q.restricted vs) := by
  obtain ⟨hreach, rfl⟩ := project_eq_ok_iff.mp h
  refine ⟨project_eq_of_reaches fun r hr v hv hvars => ?_, ?_⟩
  · exact hreach r hr v (hkept v hv hvars) hvars
  · rw [← restricted_restricted hreach hkept]
    apply project_eq_of_reaches
    intro t ht
    obtain ⟨r, hr, rfl⟩ := List.mem_map.mp ht
    exact reaches_restrict (hreach r hr) vs

/-! ### A projection before a join -/

/-- In each row the columns with one label agree. -/
def Consistent (b : Batch) : Prop :=
  ∀ r ∈ b.rows, ∀ v ∈ b.head.vars, oneValue (cellsOf b.head.vars v r) = true

theorem Regular.clean {b : Batch} (hb : b.Regular) (hconsistent : b.Consistent) : b.Clean where
  coherent := fun r hr => exists_eq_map_of_oneValue (hb.wellShaped r hr) (hconsistent r hr)
  comparable := hb.comparable

variable {a : Batch} {keep : List String}

/-- A batch with fewer columns is joined with the same rows in the same order, and a later
projection reads the same cells of them. -/
theorem map_restrict_joined (ha : a.Clean) (hkeep : ∀ v ∈ a.head.vars, v ∈ keep) (c : Batch)
    (vs : List String) : ((a.restricted keep).joined c).map
      (restrict (keep.filter a.head.vars.contains ++ c.head.vars) vs) =
      (a.joined c).map (restrict (a.head.vars ++ c.head.vars) vs) := by
  have hcompatible : ∀ r ∈ a.rows, ∀ t,
      compatible (keep.filter a.head.vars.contains) c.head.vars (r.restrict a.head.vars keep) t =
        compatible a.head.vars c.head.vars r t := by
    intro r hr t
    obtain ⟨σ, hσ⟩ := ha.coherent r hr
    exact compatible_restrict hσ hkeep t
  have hrestrict : ∀ r ∈ a.rows, ∀ t : Row,
      restrict (keep.filter a.head.vars.contains ++ c.head.vars) vs
        (r.restrict a.head.vars keep ++ t) =
        restrict (a.head.vars ++ c.head.vars) vs (r ++ t) := by
    intro r hr t
    obtain ⟨σ, hσ⟩ := ha.coherent r hr
    exact restrict_append hσ hkeep t vs
  simp only [joined, restricted, List.length_map]
  split_ifs
  · rw [List.flatMap_map, List.map_flatMap, List.map_flatMap]
    refine List.flatMap_congr fun r hr => ?_
    rw [List.map_map, List.map_map, List.filter_congr fun t _ => hcompatible r hr t]
    exact List.map_congr_left fun t _ => hrestrict r hr t
  · rw [List.map_flatMap, List.map_flatMap]
    refine List.flatMap_congr fun t _ => ?_
    rw [List.filter_map, List.map_map, List.map_map, List.map_map]
    refine (congrArg _ (List.filter_congr fun r hr => hcompatible r hr t)).trans ?_
    exact List.map_congr_left fun r hr => hrestrict r (List.mem_filter.mp hr).1 t

theorem restricted_joined_restricted (ha : a.Clean) (hkeep : ∀ v ∈ a.head.vars, v ∈ keep)
    (c : Batch) (vs : List String) :
    restricted ⟨(a.restricted keep).head.append c.head, (a.restricted keep).joined c⟩ vs =
      restricted ⟨a.head.append c.head, a.joined c⟩ vs := by
  have hhead : vs.filter (keep.filter a.head.vars.contains ++ c.head.vars).contains =
      vs.filter (a.head.vars ++ c.head.vars).contains := by
    refine filter_contains_congr fun v _ => ?_
    rw [List.mem_append, List.mem_append, mem_filter_contains]
    exact or_congr_left ⟨And.right, fun hv => ⟨hkeep v hv, hv⟩⟩
  exact congrArg₂ Batch.mk (congrArg (Head.mk a.head.predicate) hhead)
    (map_restrict_joined ha hkeep c vs)

/-- A projection of a batch whose rows are consistent may come before a join as well as
after it, if it keeps all variables. -/
theorem project_join (ha : a.Clean) {c : Batch} (hc : c.Regular)
    (hkeep : ∀ v ∈ a.head.vars, v ∈ keep) :
    ∃ kept whole narrow, a.project keep = .ok kept ∧ a.join c = .ok whole ∧
      kept.join c = .ok narrow ∧
      ∀ vs, ∃ r, whole.project vs = .ok r ∧ narrow.project vs = .ok r := by
  have hkept := (ha.restricted keep).regular
  refine ⟨_, _, _, project_eq ha.regular.wellShaped keep, join_eq ha.regular hc,
    join_eq hkept hc, fun vs => ⟨_, project_eq (ha.regular.joined hc).wellShaped vs, ?_⟩⟩
  rw [project_eq (hkept.joined hc).wellShaped vs]
  exact congrArg _ (restricted_joined_restricted ha hkeep c vs)

/-- Projections compose: each row keeps its place, and of each variable its first cell. One
that keeps all variables of a join may come before a further join as well as after it, if
the rows that were joined are consistent. Heads, rows and their order are the same. -/
theorem project_composes :
    (∀ (q : Batch) (ws vs : List String), (∀ v ∈ vs, v ∈ q.head.vars → v ∈ ws) →
      (q.WellShaped → ∃ p, q.project ws = .ok p) ∧
      ∀ p, q.project ws = .ok p → ∃ r, q.project vs = .ok r ∧ p.project vs = .ok r ∧
        r.head.vars = vs.filter q.head.vars.contains ∧
        r.rows = q.rows.map (Row.restrict q.head.vars vs)) ∧
    (∀ (q : Batch) (vs : List String) (p : Batch), q.project vs = .ok p →
      p.project vs = .ok p) ∧
    ∀ (a b c : Batch) (keep : List String), a.Regular → b.Regular → c.Regular →
      a.Consistent → b.Consistent → (∀ v, v ∈ a.head.vars ∨ v ∈ b.head.vars → v ∈ keep) →
      ∃ ab kept whole narrow, a.join b = .ok ab ∧ ab.project keep = .ok kept ∧
        ab.join c = .ok whole ∧ kept.join c = .ok narrow ∧
        ∀ vs, ∃ r, whole.project vs = .ok r ∧ narrow.project vs = .ok r := by
  refine ⟨fun q ws vs hkept => ⟨fun hq => ⟨_, project_eq hq ws⟩, fun p hp => ?_⟩,
    fun q vs p hp => ?_, fun a b c keep ha hb hc hacons hbcons hkeep => ?_⟩
  · obtain ⟨hq, hpq⟩ := project_project hkept hp
    exact ⟨q.restricted vs, hq, hpq, rfl, rfl⟩
  · obtain ⟨hq, hpq⟩ := project_project (fun _ hv _ => hv) hp
    obtain rfl := Except.ok.inj (hp.symm.trans hq)
    exact hpq
  · have hab : Clean ⟨a.head.append b.head, a.joined b⟩ :=
      (ha.clean hacons).joined (hb.clean hbcons)
    obtain ⟨kept, whole, narrow, hkept, hwhole, hnarrow, hproject⟩ :=
      project_join hab hc fun v hv => hkeep v (List.mem_append.mp hv)
    exact ⟨_, kept, whole, narrow, join_eq ha hb, hkept, hwhole, hnarrow, hproject⟩

/-- The label `x` is twice in the heads, as two values of one row or as one. Of what is kept
`y` comes first and `x` twice, `w` is absent, and `z` comes in by the last join only. -/
theorem project_composes_repeatedColumns :
    let q : Batch := ⟨Head.ofVars ["x", "y", "x"],
      [[.int 1, .text "p", .int 2], [.int 3, .null, .int 3], [.int 1, .text "p", .int 2]]⟩
    let a : Batch := ⟨Head.ofVars ["x", "y", "x"],
      [[.int 1, .text "p", .bool true], [.int 3, .null, .int 3]]⟩
    let b : Batch := ⟨Head.ofVars ["y"], [[.text "p"], [.null], [.text "p"]]⟩
    let c : Batch := ⟨Head.ofVars ["x", "z"], [[.int 1, .int 7], [.int 2, .int 8]]⟩
    (∃ p r, q.project ["y", "w", "x", "x"] = .ok p ∧ q.project ["x", "z", "y"] = .ok r ∧
      p.project ["x", "z", "y"] = .ok r ∧ r.project ["x", "z", "y"] = .ok r ∧
      p.head.vars = ["y", "x", "x"] ∧ r.head.vars = ["x", "y"] ∧
      r.rows = [[.int 1, .text "p"], [.int 3, .null], [.int 1, .text "p"]]) ∧
    ∃ ab kept whole narrow r, a.join b = .ok ab ∧ ab.project ["y", "x"] = .ok kept ∧
      ab.join c = .ok whole ∧ kept.join c = .ok narrow ∧
      whole.project ["z", "x", "y"] = .ok r ∧ narrow.project ["z", "x", "y"] = .ok r ∧
      r.rows = [[.int 7, .int 1, .text "p"], [.int 7, .int 1, .text "p"]] := by
  intro q a b c
  have hq : q.WellShaped := by unfold WellShaped; decide
  have ha : a.Regular := ⟨by unfold WellShaped; decide, by decide⟩
  have hb : b.Regular := ⟨by unfold WellShaped; decide, by decide⟩
  have hc : c.Regular := ⟨by unfold WellShaped; decide, by decide⟩
  have hacons : a.Consistent := by unfold Consistent; decide
  have hbcons : b.Consistent := by unfold Consistent; decide
  have hkeep : ∀ v, v ∈ a.head.vars ∨ v ∈ b.head.vars → v ∈ ["y", "x"] := by
    simp only [a, b, Head.ofVars, List.mem_cons, List.not_mem_nil, or_false]
    rintro v ((rfl | rfl | rfl) | rfl) <;> decide
  obtain ⟨hcompose, htwice, hjoin⟩ := project_composes
  constructor
  · obtain ⟨hdefined, hequal⟩ := hcompose q ["y", "w", "x", "x"] ["x", "z", "y"] (by decide)
    obtain ⟨p, hp⟩ := hdefined hq
    obtain ⟨r, hr, hpr, hvars, hrows⟩ := hequal p hp
    have hkept : q.project ["y", "w", "x", "x"] = .ok ⟨Head.ofVars ["y", "x", "x"],
        [[.text "p", .int 1, .int 1], [.null, .int 3, .int 3], [.text "p", .int 1, .int 1]]⟩ := by
      cbv
    obtain rfl := Except.ok.inj (hp.symm.trans hkept)
    exact ⟨_, r, hp, hr, hpr, htwice q _ r hr, rfl, hvars, hrows⟩
  · obtain ⟨ab, kept, whole, narrow, hab, hkept, hwhole, hnarrow, hsame⟩ :=
      hjoin a b c ["y", "x"] ha hb hc hacons hbcons hkeep
    obtain ⟨r, hr, hr'⟩ := hsame ["z", "x", "y"]
    have hrun : (a.join b >>= fun ab => ab.join c >>= fun whole =>
        whole.project ["z", "x", "y"]) = .ok ⟨Head.ofVars ["z", "x", "y"],
          [[.int 7, .int 1, .text "p"], [.int 7, .int 1, .text "p"]]⟩ := by cbv
    refine ⟨ab, kept, whole, narrow, r, hab, hkept, hwhole, hnarrow, hr, hr', ?_⟩
    rw [hab] at hrun
    change (ab.join c >>= _) = _ at hrun
    rw [hwhole] at hrun
    exact congrArg Batch.rows (Except.ok.inj (hr.symm.trans hrun))

/-- A float that is not a number: the join of two single cells has it twice in a row, which
disagrees with itself. Projected onto one column first, it has partners. -/
theorem project_composes_notANumber :
    let x : Value := .float (0 / 0)
    let once : Batch := ⟨Head.ofVars ["x"], [[x]]⟩
    let twice : Batch := ⟨Head.ofVars ["x"], [[x], [x]]⟩
    ((do
        let ab ← once.join once
        let whole ← ab.join twice
        whole.project ["x"]).map fun r : Batch => r.rows.length) = .ok 0 ∧
      ((do
        let ab ← once.join once
        let kept ← ab.project ["x"]
        let narrow ← kept.join twice
        narrow.project ["x"]).map fun r : Batch => r.rows.length) = .ok 2 := by
  decide +kernel

end Batch

end Conjunctive
