import Conjunctive.Batch.Join
import Conjunctive.Proofs.Batch.Columns

/-!
# Looking up partners in an index

Two rows are compatible if every variable that labels both has one value in all
its columns. An index of one batch made for the rows of another gives to each
of these rows the rows of the first that are compatible with it, in their order
(`find_index`). The key of a row says no more and no less: an indexed row gets
one only if it is consistent by itself, and its key is the key of a probing row
if and only if the two agree. This is said of cells that are equal to themselves:
a key finds a cell that is not a number, whereas columns with it disagree.
-/

namespace Conjunctive

namespace Row

/-- Whether all of some cells have the same value. -/
def oneValue (xs : List Value) : Bool := xs.all fun x => xs.all x.same

theorem oneValue_iff {xs : List Value} :
    oneValue xs = true ↔ ∀ x ∈ xs, ∀ y ∈ xs, x.denotation = y.denotation := by
  simp [oneValue, Value.same_iff]

theorem oneValue_cons_iff {x : Value} {xs : List Value} :
    oneValue (x :: xs) = true ↔ ∀ y ∈ xs, y.denotation = x.denotation := by
  rw [oneValue_iff]
  constructor
  · intro h y hy
    exact h y (by simp [hy]) x (by simp)
  · intro h
    have hall : ∀ y ∈ x :: xs, y.denotation = x.denotation := by
      intro y hy
      rcases List.mem_cons.mp hy with rfl | hy
      · rfl
      · exact h y hy
    intro y hy z hz
    rw [hall y hy, hall z hz]

theorem oneValue_append_cons_iff {xs ys : List Value} {y : Value} :
    oneValue (xs ++ y :: ys) = true ↔
      oneValue (y :: ys) = true ∧ ∀ x ∈ xs, y.denotation = x.denotation := by
  constructor
  · intro h
    rw [oneValue_iff] at h ⊢
    refine ⟨fun a ha b hb => h a (by simp [ha]) b (by simp [hb]), fun x hx => ?_⟩
    exact h y (by simp) x (by simp [hx])
  · rintro ⟨hys, hxs⟩
    have hall : ∀ a ∈ xs ++ y :: ys, a.denotation = y.denotation := by
      intro a ha
      rcases List.mem_append.mp ha with ha | ha
      · exact (hxs a ha).symm
      · exact oneValue_iff.mp hys a ha y (by simp)
    rw [oneValue_iff]
    intro a ha b hb
    rw [hall a ha, hall b hb]

/-- Whether each variable that labels both of two rows has one value in all of
its columns. -/
def compatible (vars vars' : List String) (r s : Row) : Bool :=
  vars.all fun v => !vars'.contains v || oneValue (cellsOf vars v r ++ cellsOf vars' v s)

theorem compatible_iff {vars vars' : List String} {r s : Row} :
    compatible vars vars' r s = true ↔
      ∀ v ∈ vars, v ∈ vars' → oneValue (cellsOf vars v r ++ cellsOf vars' v s) = true := by
  rw [compatible, List.all_eq_true]
  apply forall₂_congr
  intro v _
  by_cases hv : v ∈ vars' <;> simp [hv]

/-- Compatibility is a matter of what the cells denote. -/
theorem compatible_iff_values {vars vars' : List String} {r s : Row} :
    compatible vars vars' r s = true ↔
      ∀ v ∈ vars, v ∈ vars' → ∀ d e,
        (v, d) ∈ vars.zip r.denotation ++ vars'.zip s.denotation →
        (v, e) ∈ vars.zip r.denotation ++ vars'.zip s.denotation → d = e := by
  rw [compatible_iff]
  apply forall₃_congr
  intro v _ _
  simp only [← mem_map_denotation_cellsOf, List.mem_append]
  rw [oneValue_iff]
  constructor
  · intro h d e hd he
    rw [← List.mem_append, ← List.map_append] at hd he
    obtain ⟨x, hx, rfl⟩ := List.mem_map.mp hd
    obtain ⟨y, hy, rfl⟩ := List.mem_map.mp he
    exact h x hx y hy
  · intro h x hx y hy
    refine h _ _ ?_ ?_
    · rw [← List.mem_append, ← List.map_append]
      exact List.mem_map_of_mem hx
    · rw [← List.mem_append, ← List.map_append]
      exact List.mem_map_of_mem hy

theorem compatible_congr {vars vars' : List String} {r r' : Row} (h : r.same r' = true) (s : Row) :
    compatible vars vars' r s = compatible vars vars' r' s := by
  rw [Bool.eq_iff_iff, compatible_iff_values, compatible_iff_values, Row.same_iff.mp h]

theorem compatible_comm (vars vars' : List String) (r s : Row) :
    compatible vars vars' r s = compatible vars' vars s r := by
  rw [Bool.eq_iff_iff, compatible_iff, compatible_iff]
  simp only [oneValue_iff, List.mem_append, or_comm]
  exact ⟨fun h v hv hv' => h v hv' hv, fun h v hv hv' => h v hv' hv⟩

/-- Whether the cells of each variable that labels both of two rows are related pairwise. -/
def relates (related : Value → Value → Bool) (vars vars' : List String) (r s : Row) : Bool :=
  vars.all fun v => !vars'.contains v ||
    (cellsOf vars v r ++ cellsOf vars' v s).all fun x =>
      (cellsOf vars v r ++ cellsOf vars' v s).all (related x)

theorem relates_same : relates Value.same = compatible := rfl

/-- Among cells that equal themselves, rows are compatible if their cells are equal. -/
theorem relates_equals {vars vars' : List String} {r s : Row}
    (hr : ∀ x ∈ r, x.isComparable = true) (hs : ∀ x ∈ s, x.isComparable = true) :
    relates Value.equals vars vars' r s = compatible vars vars' r s := by
  have hcells : ∀ v, ∀ x ∈ cellsOf vars v r ++ cellsOf vars' v s, x.isNotANumber = false := by
    intro v x hx
    rcases List.mem_append.mp hx with hx | hx
    · exact (Value.isComparable_iff.mp (isComparable_of_mem_cellsOf hr x hx)).2
    · exact (Value.isComparable_iff.mp (isComparable_of_mem_cellsOf hs x hx)).2
  rw [← relates_same, relates, relates]
  refine congrArg (List.all vars) (funext fun v => congrArg (!vars'.contains v || ·) ?_)
  rw [Bool.eq_iff_iff, List.all_eq_true, List.all_eq_true]
  refine forall₂_congr fun x hx => ?_
  rw [List.all_eq_true, List.all_eq_true]
  simp only [Value.equals_eq_same (hcells v x hx)]

end Row

namespace Index

/-- A row that is added is found last under its key, and nothing else changes. -/
theorem find_insert (key k row : Row) (groups : Index) :
    (groups.insert k row).find key =
      groups.find key ++ if k.same key then [row] else [] := by
  induction groups with
  | nil =>
      rw [insert, find, find]
      split_ifs <;> rfl
  | cons g groups ih =>
      obtain ⟨k', rows⟩ := g
      rw [insert]
      by_cases hk : k'.same k = true
      · have hsame : k'.same key = k.same key := by
          rw [Bool.eq_iff_iff, Row.same_iff, Row.same_iff, Row.same_iff.mp hk]
        rw [if_pos hk, find, find, hsame]
        split_ifs <;> simp
      · rw [if_neg hk, find, find, ih]
        by_cases hkey : k'.same key = true
        · have hother : ¬ k.same key = true := by
            intro h
            exact hk (Row.same_trans hkey (Row.same_comm k key ▸ h))
          simp [hkey, hother]
        · simp [hkey]

end Index

namespace Batch

open Row

/-! ### Keys -/

/-- The key for probing rows of a batch that has a given value in each column of
a shared variable. -/
def keyOf (b : Batch) (sharedVars : List String) (f : Nat → Value) : Row :=
  b.head.vars.mapIdx fun i v => if v ∈ sharedVars then f i else .unbound

theorem getElem?_foldl_set (f : Nat → Value) (cs : List Nat) (key : Row) (i : Nat) :
    (cs.foldl (fun k c => k.set c (f c)) key)[i]? =
      if i ∈ cs then key[i]?.map fun _ => f i else key[i]? := by
  induction cs generalizing key with
  | nil => simp
  | cons c cs ih =>
      rw [List.foldl_cons, ih]
      by_cases hic : c = i
      · subst hic
        by_cases hc : c < key.length
        · simp [hc]
        · simp [hc]
      · simp [List.getElem?_set_ne hic, Ne.symm hic]

/-- Setting the columns of the shared variables one after the other makes a key. -/
theorem foldl_set_eq_keyOf (b : Batch) (sharedVars : List String) (f : Nat → Value) :
    (sharedVars.flatMap b.columnsOf).foldl (fun k c => k.set c (f c))
      (List.replicate b.head.vars.length Value.unbound) = b.keyOf sharedVars f := by
  apply List.ext_getElem?
  intro i
  rw [getElem?_foldl_set, keyOf, List.getElem?_mapIdx, List.getElem?_replicate]
  have hmem : i ∈ sharedVars.flatMap b.columnsOf ↔ ∃ v ∈ sharedVars, b.head.vars[i]? = some v := by
    simp only [List.mem_flatMap, mem_columnsOf]
  by_cases hi : i < b.head.vars.length
  · have hlabel := List.getElem?_eq_getElem hi
    rw [hlabel] at hmem ⊢
    by_cases hv : b.head.vars[i] ∈ sharedVars
    · rw [if_pos (hmem.mpr ⟨_, hv, rfl⟩)]
      simp [hi, hv]
    · have hnot : i ∉ sharedVars.flatMap b.columnsOf := by
        intro h
        obtain ⟨v, hv', heq⟩ := hmem.mp h
        exact hv (Option.some.inj heq ▸ hv')
      simp [hi, hv, hnot]
  · simp [hi]

theorem probeKey_eq {b : Batch} {sharedVars : List String}
    (hshared : ∀ v ∈ sharedVars, v ∈ b.head.vars) {r : Row}
    (hr : r.length = b.head.vars.length) :
    b.probeKey sharedVars r = .ok (b.keyOf sharedVars fun i => r[i]?.getD .unbound) := by
  have hcolumn : ∀ c, c < r.length → ∀ key : Row,
      (r.cell c >>= fun x => pure (key.set c x)) =
        Except.ok (ε := BatchError) (key.set c (r[c]?.getD .unbound)) := by
    intro c hc key
    rw [cell, List.getElem?_eq_getElem hc]
    rfl
  rw [← foldl_set_eq_keyOf, List.foldl_flatMap, probeKey]
  refine foldlM_eq_ok (fun v hv key => ?_) _
  rw [columns_eq (hshared v hv)]
  refine foldlM_eq_ok (fun c hc key => hcolumn c ?_ key) key
  rw [hr]
  exact (List.getElem?_eq_some_iff.mp (mem_columnsOf.mp hc)).1

/-- Cells that are equal are the same, and the other way round if they are numbers. -/
theorem agrees_eq {row : Row} {v : Value} {cs : List Nat} {xs : List Value}
    (h : List.Forall₂ (fun c x => row.cell c = .ok x) cs xs)
    (hxs : ∀ x ∈ xs, x.isComparable = true) :
    agrees row v cs = .ok (xs.all fun x => x.same v) := by
  induction h with
  | nil => rfl
  | @cons c x cs xs hx _ ih =>
      obtain ⟨hcomparable, hxs⟩ := List.forall_mem_cons.mp hxs
      rw [agrees, hx]
      change (if x.equals v then _ else _) = _
      rw [Value.equals_eq_same (Value.isComparable_iff.mp hcomparable).2]
      split_ifs with hsame
      · rw [ih hxs, List.all_cons, hsame, Bool.true_and]
      · rw [List.all_cons, Bool.eq_false_iff.mpr hsame]
        rfl

theorem valueAt_eq {row : Row} {cs : List Nat} {xs : List Value}
    (h : List.Forall₂ (fun c x => row.cell c = .ok x) cs xs)
    (hcells : ∀ x ∈ xs, x.isComparable = true) :
    valueAt row cs = .ok (if oneValue xs then xs.head? else none) := by
  cases h with
  | nil => rfl
  | @cons c x cs xs hx hxs =>
      have hone : oneValue (x :: xs) = xs.all fun y => y.same x := by
        rw [Bool.eq_iff_iff, oneValue_cons_iff, List.all_eq_true]
        simp only [Value.same_iff]
      rw [valueAt, hx]
      change (agrees row x cs >>= _) = _
      rw [agrees_eq hxs (List.forall_mem_cons.mp hcells).2, hone]
      rfl

/-- What an indexed row puts into a column of the probing batch. -/
def entry (probe build : Batch) (row : Row) (i : Nat) : Value :=
  (probe.head.vars[i]?.bind fun v => List.lookup v (build.head.vars.zip row)).getD .unbound

/-- It is the first of the cells of the variable that labels the column. -/
theorem entry_eq {probe build : Batch} {row : Row} {i : Nat} {v : String} {x : Value}
    (hi : probe.head.vars[i]? = some v) (hx : (cellsOf build.head.vars v row).head? = some x) :
    probe.entry build row i = x := by
  rw [entry, hi, Option.bind_some, ← head?_cellsOf, hx]
  rfl

/-- The key of an indexed row, which exists if the row is consistent. -/
theorem buildKey_eq {probe build : Batch} {sharedVars : List String}
    (hshared : ∀ v ∈ sharedVars, v ∈ build.head.vars) {row : Row}
    (hrow : row.length = build.head.vars.length) (hcells : ∀ x ∈ row, x.isComparable = true)
    (key : Row) :
    buildKey row key (sharedVars.map fun v => (build.columnsOf v, probe.columnsOf v)) =
      .ok (if sharedVars.all fun v => oneValue (cellsOf build.head.vars v row) then
        some ((sharedVars.flatMap probe.columnsOf).foldl
          (fun k c => k.set c (probe.entry build row c)) key)
        else none) := by
  induction sharedVars generalizing key with
  | nil => rfl
  | cons v sharedVars ih =>
      have hne := cellsOf_ne_nil (hshared v (by simp)) hrow
      rw [List.map_cons, buildKey,
        valueAt_eq (forall₂_cell hrow v) (isComparable_of_mem_cellsOf hcells), List.all_cons]
      by_cases hone : oneValue (cellsOf build.head.vars v row) = true
      · obtain ⟨x, xs, hxs⟩ := List.exists_cons_of_ne_nil hne
        have hhead : (cellsOf build.head.vars v row).head? = some x := by rw [hxs]; rfl
        rw [if_pos hone, hhead, hone, Bool.true_and]
        change buildKey row (place key (probe.columnsOf v) x) _ = _
        have hplace : place key (probe.columnsOf v) x =
            (probe.columnsOf v).foldl (fun k c => k.set c (probe.entry build row c)) key := by
          apply List.foldl_ext _ _ _
          intro k c hc
          rw [entry_eq (mem_columnsOf.mp hc) hhead]
        rw [ih (fun v hv => hshared v (by simp [hv])), List.flatMap_cons, List.foldl_append,
          hplace]
      · rw [if_neg hone, Bool.eq_false_iff.mpr hone, Bool.false_and]
        rfl

/-! ### Finding partners -/

/-- The key of an indexed row is found by the probing rows that have its values
in the columns of the shared variables. -/
theorem same_keyOf_iff {b : Batch} {sharedVars : List String} {f g : Nat → Value} :
    (b.keyOf sharedVars f).same (b.keyOf sharedVars g) = true ↔
      ∀ v ∈ sharedVars, ∀ i, b.head.vars[i]? = some v →
        Value.denotation (f i) = Value.denotation (g i) := by
  rw [Row.same_iff, Row.denotation, Row.denotation, List.ext_getElem?_iff]
  simp only [keyOf, List.getElem?_map, List.getElem?_mapIdx]
  constructor
  · intro h v hv i hi
    have hcell := h i
    rw [hi] at hcell
    simpa [hv] using hcell
  · intro h i
    cases hi : b.head.vars[i]? with
    | none => rfl
    | some v =>
        by_cases hv : v ∈ sharedVars
        · simp [hv, h v hv i hi]
        · simp [hv]

/-- For one variable: its cells in both rows have one value if those of the indexed
row have, and this value is in all its columns of the probing row. -/
theorem oneValue_append_cellsOf_iff {probe build : Batch} {r s : Row}
    (hr : r.length = probe.head.vars.length) (hs : s.length = build.head.vars.length)
    {v : String} (hv : v ∈ build.head.vars) :
    oneValue (cellsOf probe.head.vars v r ++ cellsOf build.head.vars v s) = true ↔
      oneValue (cellsOf build.head.vars v s) = true ∧
        ∀ i, probe.head.vars[i]? = some v →
          Value.denotation (probe.entry build s i) = Value.denotation (r[i]?.getD .unbound) := by
  obtain ⟨y, ys, hys⟩ := List.exists_cons_of_ne_nil (cellsOf_ne_nil hv hs)
  have hentry : ∀ i, probe.head.vars[i]? = some v → probe.entry build s i = y := fun i hi =>
    entry_eq hi (by rw [hys]; rfl)
  rw [hys, oneValue_append_cons_iff]
  apply and_congr_right
  intro _
  constructor
  · intro h i hi
    have hlt : i < r.length := hr ▸ (List.getElem?_eq_some_iff.mp hi).1
    rw [hentry i hi, List.getElem?_eq_getElem hlt]
    refine h r[i] (mem_cellsOf.mpr (List.mem_iff_getElem?.mpr ⟨i, ?_⟩))
    rw [List.getElem?_zip_eq_some]
    exact ⟨hi, List.getElem?_eq_getElem hlt⟩
  · intro h x hx
    obtain ⟨i, hi⟩ := List.mem_iff_getElem?.mp (mem_cellsOf.mp hx)
    rw [List.getElem?_zip_eq_some] at hi
    have heq := h i hi.1
    rwa [hentry i hi.1, hi.2] at heq

/-- The two keys meet exactly when the rows are compatible. -/
theorem consistent_and_same_iff {probe build : Batch} {sharedVars : List String}
    (hshared : ∀ v, v ∈ sharedVars ↔ v ∈ probe.head.vars ∧ v ∈ build.head.vars) {r s : Row}
    (hr : r.length = probe.head.vars.length) (hs : s.length = build.head.vars.length) :
    ((sharedVars.all fun v => oneValue (cellsOf build.head.vars v s)) = true ∧
      (probe.keyOf sharedVars (probe.entry build s)).same
        (probe.keyOf sharedVars fun i => r[i]?.getD .unbound) = true) ↔
      compatible probe.head.vars build.head.vars r s = true := by
  rw [List.all_eq_true, same_keyOf_iff, compatible_iff]
  constructor
  · rintro ⟨hone, hsame⟩ v hv hv'
    have hmem := (hshared v).mpr ⟨hv, hv'⟩
    exact (oneValue_append_cellsOf_iff hr hs hv').mpr ⟨hone v hmem, hsame v hmem⟩
  · intro h
    have hvariable : ∀ v ∈ sharedVars,
        oneValue (cellsOf build.head.vars v s) = true ∧
          ∀ i, probe.head.vars[i]? = some v →
            Value.denotation (probe.entry build s i) =
              Value.denotation (r[i]?.getD .unbound) := by
      intro v hv
      obtain ⟨hvp, hvb⟩ := (hshared v).mp hv
      exact (oneValue_append_cellsOf_iff hr hs hvb).mp (h v hvp hvb)
    exact ⟨fun v hv => (hvariable v hv).1, fun v hv => (hvariable v hv).2⟩

theorem keyOf_isKey {b : Batch} {sharedVars : List String} {f : Nat → Value}
    (hf : ∀ i, (f i).isKey = true) : ∀ v ∈ b.keyOf sharedVars f, v.isKey = true := by
  intro v hv
  obtain ⟨i, hi, rfl⟩ := List.mem_mapIdx.mp hv
  split_ifs
  · exact hf i
  · rfl

theorem isKey_getD {x : Option Value} (h : ∀ v ∈ x, v.isKey = true) :
    (x.getD .unbound).isKey = true := by
  cases x with
  | none => rfl
  | some v => exact h v rfl

theorem entry_isKey {probe build : Batch} {s : Row} (h : ∀ v ∈ s, v.isKey = true) (i : Nat) :
    (probe.entry build s i).isKey = true := by
  apply isKey_getD
  intro v hv
  obtain ⟨x, -, hlookup⟩ := Option.bind_eq_some_iff.mp hv
  rw [← head?_cellsOf] at hlookup
  have hmem := mem_cellsOf.mp (List.mem_of_mem_head? hlookup)
  exact h v (List.of_mem_zip hmem).2

/-- Rows that are added one after the other, each under its key if it has one. -/
theorem find_foldlM {blank : Row} {placements : List (List Nat × List Nat)}
    {keyOf? : Row → Option Row} {rows : List Row}
    (hkey : ∀ s ∈ rows, buildKey s blank placements = .ok (keyOf? s))
    (hcheck : ∀ s ∈ rows, ∀ k ∈ keyOf? s, k.checkKeys = .ok ()) (groups : Index) :
    ∃ groups' : Index,
      rows.foldlM (fun (groups : Index) row => do
        match ← buildKey row blank placements with
        | some key => do
          key.checkKeys
          pure (groups.insert key row)
        | none => pure groups) groups = Except.ok (ε := BatchError) groups' ∧
      ∀ key, groups'.find key =
        groups.find key ++ rows.filter fun s => (keyOf? s).any (·.same key) := by
  induction rows generalizing groups with
  | nil => exact ⟨groups, rfl, by simp⟩
  | cons s rows ih =>
      have hrest := ih (fun t ht => hkey t (by simp [ht])) (fun t ht => hcheck t (by simp [ht]))
      rw [List.foldlM_cons, hkey s (by simp)]
      cases hs : keyOf? s with
      | none =>
          obtain ⟨groups', hrun, hfind⟩ := hrest groups
          refine ⟨groups', hrun, fun key => ?_⟩
          simp [hfind, hs]
      | some k =>
          obtain ⟨groups', hrun, hfind⟩ := hrest (groups.insert k s)
          refine ⟨groups', ?_, fun key => ?_⟩
          · change (k.checkKeys >>= fun _ => pure (groups.insert k s)) >>= _ = _
            rw [hcheck s (by simp) k hs]
            exact hrun
          · rw [hfind, Index.find_insert]
            by_cases hsame : k.same key = true <;> simp [hs, hsame]

/-- A key finds the consistent rows that have it, in the order of the batch. -/
theorem find_index {probe build : Batch} {sharedVars : List String}
    (hshared : ∀ v, v ∈ sharedVars ↔ v ∈ probe.head.vars ∧ v ∈ build.head.vars)
    (h : build.Regular) :
    ∃ groups, index probe build sharedVars = .ok groups ∧
      ∀ key, groups.find key = build.rows.filter fun s =>
        (sharedVars.all fun v => oneValue (cellsOf build.head.vars v s)) &&
          (probe.keyOf sharedVars (probe.entry build s)).same key := by
  have hplacements : sharedVars.mapM (fun v => do
      let buildColumns ← build.columns v
      let probeColumns ← probe.columns v
      pure (buildColumns, probeColumns)) =
      Except.ok (sharedVars.map fun v => (build.columnsOf v, probe.columnsOf v)) := by
    apply mapM_eq_ok
    intro v hv
    rw [columns_eq ((hshared v).mp hv).1, columns_eq ((hshared v).mp hv).2]
    rfl
  have hkey : ∀ s ∈ build.rows,
      buildKey s (List.replicate probe.head.vars.length Value.unbound)
        (sharedVars.map fun v => (build.columnsOf v, probe.columnsOf v)) =
      .ok (if sharedVars.all fun v => oneValue (cellsOf build.head.vars v s) then
        some (probe.keyOf sharedVars (probe.entry build s)) else none) := by
    intro s hs
    rw [buildKey_eq (fun v hv => ((hshared v).mp hv).2) (h.wellShaped s hs) (h.comparable s hs),
      foldl_set_eq_keyOf]
  have hcheck : ∀ s ∈ build.rows, ∀ k ∈
      (if sharedVars.all fun v => oneValue (cellsOf build.head.vars v s) then
        some (probe.keyOf sharedVars (probe.entry build s)) else none),
      k.checkKeys = .ok () := by
    intro s hs k hk
    rw [Option.mem_def] at hk
    split_ifs at hk
    cases hk
    exact checkKeys_eq_ok (keyOf_isKey (entry_isKey (h.isKey s hs)))
  obtain ⟨groups, hrun, hfind⟩ := find_foldlM hkey hcheck []
  refine ⟨groups, ?_, fun key => ?_⟩
  · rw [index, hplacements]
    exact hrun
  · rw [hfind, Index.find, List.nil_append]
    apply List.filter_congr
    intro s _
    split_ifs with hall
    · rw [hall]
      rfl
    · rw [Bool.eq_false_iff.mpr hall]
      rfl

/-- Each probing row is paired with the indexed rows that are compatible with it. -/
theorem partners_eq {probe build : Batch} {sharedVars : List String}
    (hshared : ∀ v, v ∈ sharedVars ↔ v ∈ probe.head.vars ∧ v ∈ build.head.vars)
    (hp : probe.Regular) (hb : build.Regular) :
    ∃ groups, index probe build sharedVars = .ok groups ∧
      probe.partners sharedVars groups =
        .ok (probe.rows.map fun r =>
          (r, build.rows.filter (compatible probe.head.vars build.head.vars r))) := by
  obtain ⟨groups, hindex, hfind⟩ := find_index hshared hb
  refine ⟨groups, hindex, mapM_eq_ok fun r hr => ?_⟩
  have hwidth := hp.wellShaped r hr
  rw [probeKey_eq (fun v hv => ((hshared v).mp hv).1) hwidth]
  have hcheck : (probe.keyOf sharedVars fun i => r[i]?.getD .unbound).checkKeys
      = .ok () := by
    refine checkKeys_eq_ok (keyOf_isKey fun i => isKey_getD fun v hv => ?_)
    exact hp.isKey r hr v (List.mem_of_getElem? hv)
  change (Row.checkKeys (probe.keyOf sharedVars _) >>= fun _ => pure (r, groups.find
    (probe.keyOf sharedVars fun i => r[i]?.getD .unbound))) = _
  rw [hcheck, hfind]
  refine congrArg (fun rows => Except.ok (r, rows)) (List.filter_congr fun s hs => ?_)
  rw [Bool.eq_iff_iff, Bool.and_eq_true]
  exact consistent_and_same_iff hshared hwidth (hb.wellShaped s hs)

end Batch

end Conjunctive
