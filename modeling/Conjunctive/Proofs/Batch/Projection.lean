import Conjunctive.Batch.Projection
import Conjunctive.Proofs.Batch.Columns
import Std.Data.HashSet.Lemmas

/-!
# Projections row by row

A projection restricts every row to the kept variables and keeps the number and
the order of the rows. To drop repetitions is to cap the number of occurrences
of each row at one.
-/

namespace Conjunctive

namespace Row

/-- The first cells of a row for some variables, for those that label the row. -/
def restrict (vars keep : List String) (r : Row) : Row :=
  keep.filterMap fun v => List.lookup v (vars.zip r)

/-- Whether a row has a cell in the first column of each kept variable. -/
def Reaches (vars keep : List String) (r : Row) : Prop :=
  ∀ v ∈ keep, v ∈ vars → (List.lookup v (vars.zip r)).isSome = true

theorem reaches_cons_iff {vars keep : List String} {v : String} {r : Row} :
    r.Reaches vars (v :: keep) ↔
      (v ∈ vars → (List.lookup v (vars.zip r)).isSome = true) ∧ r.Reaches vars keep :=
  List.forall_mem_cons

theorem reaches_of_length {vars : List String} {r : Row} (h : r.length = vars.length)
    (keep : List String) : r.Reaches vars keep := by
  intro v _ hv
  rw [← head?_cellsOf]
  exact List.isSome_head?.mpr (cellsOf_ne_nil hv h)

theorem mem_of_mem_restrict {vars keep : List String} {r : Row} {x : Value}
    (h : x ∈ r.restrict vars keep) : x ∈ r := by
  obtain ⟨v, -, hlookup⟩ := List.mem_filterMap.mp h
  rw [← head?_cellsOf] at hlookup
  exact (List.of_mem_zip (mem_cellsOf.mp (List.mem_of_mem_head? hlookup))).2

theorem count_distinctFrom (t : Row) (seen : Std.HashSet (List Denotation)) (rows : List Row) :
    t.count (distinctFrom seen rows) =
      if seen.contains t.denotation then 0 else min 1 (t.count rows) := by
  induction rows generalizing seen with
  | nil => simp [distinctFrom]
  | cons r rows ih =>
      rw [distinctFrom]
      split_ifs with hr ht ht
      · simp [ih, ht]
      · have hne : ¬ t.same r = true := by
          rw [same_iff]
          intro heq
          exact ht (heq ▸ hr)
        rw [ih, if_neg ht, count, count, List.countP_cons_of_neg hne]
      · have hne : ¬ t.same r = true := by
          rw [same_iff]
          intro heq
          exact hr (heq ▸ ht)
        rw [count, List.countP_cons_of_neg hne, ← count, ih, Std.HashSet.contains_insert, ht,
          Bool.or_true, if_pos rfl]
      · by_cases heq : t.same r = true
        · have hseen : (seen.insert r.denotation).contains t.denotation = true := by
            rw [Std.HashSet.contains_insert, same_iff.mp heq]
            simp
          rw [count, count, List.countP_cons_of_pos heq, List.countP_cons_of_pos heq, ← count,
            ih, if_pos hseen]
          omega
        · have hseen : ¬ (seen.insert r.denotation).contains t.denotation = true := by
            rw [Std.HashSet.contains_insert]
            have hne : r.denotation ≠ t.denotation := fun h => heq (same_iff.mpr h.symm)
            simp [hne, ht]
          rw [count, count, List.countP_cons_of_neg heq, List.countP_cons_of_neg heq, ← count, ih,
            if_neg hseen, ← count]

/-- Without repetitions a row occurs at most once. -/
theorem count_distinct (t : Row) (rows : List Row) :
    t.count (distinct rows) = min 1 (t.count rows) := by
  rw [distinct, count_distinctFrom]
  simp

end Row

namespace Batch

/-- A batch restricted to some variables. -/
def restricted (b : Batch) (keep : List String) : Batch :=
  ⟨⟨b.head.predicate, keep.filter b.head.vars.contains⟩,
    b.rows.map (Row.restrict b.head.vars keep)⟩

/-- Reading the first columns of the kept variables restricts a row that reaches them. -/
theorem mapM_cell_eq_ok_iff {b : Batch} {r t : Row} {keep : List String} :
    (keep.filterMap fun v => (b.columnsOf v).head?.map fun c => (v, c)).mapM
        (fun k => r.cell k.2) = .ok t ↔
      r.Reaches b.head.vars keep ∧ t = r.restrict b.head.vars keep := by
  induction keep generalizing t with
  | nil =>
      constructor
      · rintro ⟨⟩
        exact ⟨nofun, rfl⟩
      · rintro ⟨-, rfl⟩
        rfl
  | cons v keep ih =>
      have hlookup := lookup_vars_zip b v r
      rw [Row.reaches_cons_iff, Row.restrict, List.filterMap_cons, List.filterMap_cons,
        ← Row.restrict]
      cases hc : (b.columnsOf v).head? with
      | none =>
          have hv := head?_columnsOf_eq_none_iff.mp hc
          rw [hc, Option.bind_none] at hlookup
          rw [hlookup, Option.map_none, ih]
          simp [hv]
      | some c =>
          have hv : v ∈ b.head.vars := by
            by_contra hv
            rw [head?_columnsOf_eq_none_iff.mpr hv] at hc
            cases hc
          rw [hc, Option.bind_some] at hlookup
          rw [hlookup, Option.map_some]
          dsimp only
          rw [List.mapM_cons, bind_eq_ok_iff, Row.cell]
          cases r[c]? with
          | none => simp [hv]
          | some x =>
              simp only [Option.isSome_some, implies_true, true_and]
              constructor
              · rintro ⟨y, hy, hrest⟩
                obtain ⟨s, hs, ht⟩ := bind_eq_ok_iff.mp hrest
                obtain ⟨hreach, rfl⟩ := ih.mp hs
                cases hy
                exact ⟨hreach, (Except.ok.inj ht).symm⟩
              · rintro ⟨hreach, rfl⟩
                exact ⟨x, rfl, bind_eq_ok_iff.mpr ⟨_, ih.mpr ⟨hreach, rfl⟩, rfl⟩⟩

theorem map_fst_columnsOf (b : Batch) (keep : List String) :
    (keep.filterMap fun v => (b.columnsOf v).head?.map fun c => (v, c)).map Prod.fst =
      keep.filter b.head.vars.contains := by
  induction keep with
  | nil => rfl
  | cons v keep ih =>
      cases hc : (b.columnsOf v).head? with
      | none =>
          have hv := head?_columnsOf_eq_none_iff.mp hc
          simpa [hc, hv] using ih
      | some c =>
          have hv : v ∈ b.head.vars := by
            by_contra hv
            rw [head?_columnsOf_eq_none_iff.mpr hv] at hc
            cases hc
          simpa [hc, hv] using ih

theorem project_eq_of_reaches {b : Batch} {keep : List String}
    (h : ∀ r ∈ b.rows, r.Reaches b.head.vars keep) :
    b.project keep = .ok (b.restricted keep) := by
  have hrows : b.rows.mapM (fun r => (keep.filterMap fun v => (b.columnsOf v).head?.map
      fun c => (v, c)).mapM fun k => r.cell k.2) =
      .ok (b.rows.map (Row.restrict b.head.vars keep)) :=
    mapM_eq_ok fun r hr => mapM_cell_eq_ok_iff.mpr ⟨h r hr, rfl⟩
  simp only [project, hrows, map_fst_columnsOf]
  rfl

/-- A projection restricts every row to the kept variables, and fails unless all rows reach
them. -/
theorem project_eq_ok_iff {b c : Batch} {keep : List String} : b.project keep = .ok c ↔
    (∀ r ∈ b.rows, r.Reaches b.head.vars keep) ∧ c = b.restricted keep := by
  constructor
  · intro h
    obtain ⟨rows, hrows, -⟩ := bind_eq_ok_iff.mp h
    have hreach : ∀ r ∈ b.rows, r.Reaches b.head.vars keep := by
      intro r hr
      obtain ⟨t, ht⟩ := exists_eq_ok_of_mapM_eq_ok hrows hr
      exact (mapM_cell_eq_ok_iff.mp ht).1
    rw [project_eq_of_reaches hreach] at h
    exact ⟨hreach, (Except.ok.inj h).symm⟩
  · rintro ⟨hreach, rfl⟩
    exact project_eq_of_reaches hreach

theorem project_eq {b : Batch} (hb : b.WellShaped) (keep : List String) :
    b.project keep = .ok (b.restricted keep) :=
  project_eq_of_reaches fun r hr => Row.reaches_of_length (hb r hr) keep

theorem distinct_eq {b : Batch} (hb : b.Regular) :
    b.distinct = .ok ⟨b.head, Row.distinct b.rows⟩ := by
  rw [distinct, checkKeys_of_isKey hb.isKey]
  rfl

end Batch

end Conjunctive
