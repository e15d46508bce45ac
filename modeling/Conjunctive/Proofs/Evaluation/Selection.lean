import Conjunctive.Query.Resolve
import Conjunctive.Relation.Delimited
import Conjunctive.Proofs.Evaluation.Matching
import Conjunctive.Proofs.Relation.NumberColumn

/-!
# Selecting rows by a number

An atom of one constant and different variables selects the rows that hold the constant at
its place. In a relation that was read from a text, the cells of a column of numbers are
compared with the numbers they are written as: these are the same for the literals that the
column keeps. If it keeps all of them, a constant selects the rows in which its number is
written.
-/

namespace Conjunctive

namespace Atom

variable {σ : Valuation} {ts : List Term} {row : Row} {c : Constant} {i : Nat}

/-- The terms are different variables, except for a constant at one place. -/
structure Selects (a : Atom) (i : Nat) (c : Constant) : Prop where
  constant : a.terms[i]? = some (.constant c)
  isVariable : ∀ j t, a.terms[j]? = some t → j ≠ i → t.isVariable = true
  nodup : (a.terms.filterMap Term.asVariable).Nodup

/-- The cells of a row at the places of the variables of a head. -/
def picked (a : Atom) (head : List String) (row : Row) : Row :=
  (a.columnsIn head).map fun v => row.getD (a.terms.idxOf (.variable v)) .null

/-- If all constants are the same as their cells, different variables have the values at
their places. -/
theorem matchFrom_of_nodup (hlength : row.length = ts.length)
    (hnodup : (ts.filterMap Term.asVariable).Nodup)
    (hfresh : ∀ v, Term.variable v ∈ ts → σ.value? v = none)
    (hconstants : ∀ j d, ts[j]? = some (Term.constant d) →
      d.value.same (row.getD j .null) = true) :
    ∃ τ, matchFrom σ ts row = some τ ∧ ∀ v, τ.value? v =
      if Term.variable v ∈ ts then some (row.getD (ts.idxOf (.variable v)) .null)
      else σ.value? v := by
  induction ts generalizing σ row with
  | nil => exact ⟨σ, by cases row <;> rfl, fun v => by simp⟩
  | cons t ts ih =>
      obtain ⟨x, xs, rfl⟩ := List.exists_cons_of_length_eq_add_one hlength
      have hrest : ∀ j d, ts[j]? = some (Term.constant d) →
          d.value.same (xs.getD j .null) = true := fun j d hd => hconstants (j + 1) d hd
      cases t with
      | constant d =>
          obtain ⟨τ, hτ, hvalues⟩ := ih (σ := σ) (Nat.succ.inj hlength) hnodup
            (fun v hv => hfresh v (List.mem_cons_of_mem _ hv)) hrest
          have hx : d.value.same x = true := hconstants 0 d rfl
          refine ⟨τ, ?_, fun v => ?_⟩
          · rw [matchFrom, if_pos hx, hτ]
          · have hne : Term.constant d ≠ Term.variable v := nofun
            rw [hvalues, List.idxOf_cons_ne _ hne]
            simp
      | «variable» w =>
          have hw : Term.variable w ∉ ts := fun h =>
            (List.nodup_cons.mp hnodup).1 (List.mem_filterMap.mpr ⟨_, h, rfl⟩)
          obtain ⟨τ, hτ, hvalues⟩ := ih (σ := (w, x) :: σ) (Nat.succ.inj hlength)
            (List.nodup_cons.mp hnodup).2 (fun v hv => by
              rw [Valuation.value?_cons, if_neg (by rintro rfl; exact hw hv)]
              exact hfresh v (List.mem_cons_of_mem _ hv)) hrest
          refine ⟨τ, ?_, fun v => ?_⟩
          · rw [matchFrom, hfresh w List.mem_cons_self]
            exact hτ
          · rw [hvalues, Valuation.value?_cons]
            by_cases hv : v = w
            · subst hv
              simp [hw]
            · rw [List.idxOf_cons_ne _ (by simpa using Ne.symm hv)]
              simp [hv]

theorem matchFrom_eq_none_of_constant (hlength : row.length = ts.length)
    (hconstant : ts[i]? = some (.constant c))
    (hrow : c.value.same (row.getD i .null) = false) : matchFrom σ ts row = none := by
  induction ts generalizing σ row i with
  | nil => cases hconstant
  | cons t ts ih =>
      obtain ⟨x, xs, rfl⟩ := List.exists_cons_of_length_eq_add_one hlength
      cases i with
      | zero =>
          obtain rfl : t = .constant c := Option.some_inj.mp hconstant
          exact if_neg (Bool.eq_false_iff.mp hrow)
      | succ i =>
          have hrest : ∀ τ, matchFrom τ ts xs = none :=
            fun τ => ih (Nat.succ.inj hlength) hconstant hrow
          cases t with
          | constant d => simp [matchFrom, hrest]
          | «variable» w => cases hw : σ.value? w <;> simp [matchFrom, hw, hrest]

variable {a : Atom}

theorem match?_of_selects (h : a.Selects i c) (hlength : row.length = a.terms.length)
    (hrow : c.value.same (row.getD i .null) = true) :
    ∃ σ, a.match? row = some σ ∧ ∀ v ∈ a.vars,
      σ.value? v = some (row.getD (a.terms.idxOf (.variable v)) .null) := by
  have hconstants : ∀ j d, a.terms[j]? = some (Term.constant d) →
      d.value.same (row.getD j .null) = true := by
    intro j d hd
    by_cases hj : j = i
    · subst hj
      rw [h.constant] at hd
      cases hd
      exact hrow
    · cases h.isVariable j _ hd hj
  obtain ⟨σ, hσ, hvalues⟩ := matchFrom_of_nodup (σ := []) hlength h.nodup (fun _ _ => rfl)
    hconstants
  exact ⟨σ, hσ, fun v hv => by rw [hvalues, if_pos (mem_vars_iff.mp hv)]⟩

theorem scanRow_of_selects (h : a.Selects i c) (hlength : row.length = a.terms.length)
    (head : List String) :
    ((a.match? row).bind fun σ => (a.columnsIn head).mapM σ.value?) =
      if c.value.same (row.getD i .null) then some (a.picked head row) else none := by
  split_ifs with hrow
  · obtain ⟨σ, hσ, hvalues⟩ := match?_of_selects h hlength hrow
    rw [hσ, Option.bind_some]
    exact mapM_eq_some fun v hv => hvalues v (List.contains_iff_mem.mp (List.mem_filter.mp hv).2)
  · rw [match?, matchFrom_eq_none_of_constant hlength h.constant (by simpa using hrow)]
    rfl

/-- Scanning selects the rows that hold the constant. -/
theorem scan_of_selects {r : Relation} (hr : a.relation = some r) (h : a.Selects i c)
    (head : List String) :
    a.scan head = .ok ⟨Head.ofVars (a.columnsIn head),
      (r.rows.filter fun row => c.value.same (row.getD i .null)).map (a.picked head)⟩ := by
  have hrows : a.scanRows head r.rows =
      (r.rows.filter fun row => c.value.same (row.getD i .null)).map (a.picked head) := by
    rw [← List.filterMap_eq_map, List.filterMap_filter]
    refine List.filterMap_congr fun row hrow => ?_
    exact scanRow_of_selects h ((r.width_eq row hrow).trans (a.arity_eq r hr).symm) head
  rw [← hrows]
  unfold scan
  split
  next hnone => rw [hr] at hnone; cases hnone
  next s hs => rw [hr] at hs; cases hs; rfl

end Atom

namespace Relation

open CellText

/-- The texts of the cells of a column of a delimited text. -/
def cellTexts (delimiter : Char) (text : String) (i : Nat) : List (List Char) :=
  match (Delimited.read delimiter text.toList).finish with
  | [] => []
  | header :: rows =>
    let labels := ((rows.head?.map fun r => r.fields.length).getD 0) - header.fields.length
    Delimited.columnCells (rows.map Delimited.Record.fields) (labels + i)

variable {label : String} {delimiter : Char} {text : String} {r : Relation} {i : Nat}

theorem exists_of_ofDelimited? (h : ofDelimited? label delimiter text = .ok r) :
    ∃ header labels rows, r = Delimited.relation label header labels rows ∧
      ∀ i, cellTexts delimiter text i = Delimited.columnCells rows (labels + i) := by
  rw [ofDelimited?] at h
  dsimp only at h
  unfold cellTexts
  cases hrecords : (Delimited.read delimiter text.toList).finish with
  | nil =>
      rw [hrecords] at h
      dsimp only at h
      split_ifs at h
  | cons header rows =>
      rw [hrecords] at h
      dsimp only at h
      split at h
      next => cases h
      next =>
        split_ifs at h
        cases h
        exact ⟨_, _, _, rfl, fun i => rfl⟩

theorem map_getD_transpose {columns : List (List Value)} {column : List Value}
    (h : columns[i]? = some column) :
    (Delimited.transpose column.length columns).map (fun row => row.getD i .null) =
      column.map Value.stored := by
  rw [Delimited.transpose, List.map_map]
  refine List.ext_getElem (by simp) fun k hk hk' => ?_
  rw [List.length_map] at hk'
  simp [h, hk']

theorem map_stored_readColumn (cells : List (List Char)) :
    (readColumn cells).map Value.stored = readColumn cells := by
  rw [readColumn, List.map_map]
  refine List.map_congr_left fun cs _ => ?_
  rw [Function.comp_apply, Value.stored, isNotANumber_reader, if_neg Bool.false_ne_true]

/-- The cells of a column are those that are read from its texts. -/
theorem map_cell_ofDelimited? (h : ofDelimited? label delimiter text = .ok r) (hi : i < r.arity) :
    r.rows.map (fun row => row.getD i .null) = readColumn (cellTexts delimiter text i) := by
  obtain ⟨header, labels, rows, rfl, hcells⟩ := exists_of_ofDelimited? h
  have hheader : i < header.length := by
    simpa [arity, Delimited.relation, Delimited.length_columnNames] using hi
  have hlength : (readColumn (cellTexts delimiter text i)).length = rows.length := by
    rw [length_readColumn, hcells, Delimited.columnCells, List.length_map]
  rw [Delimited.relation]
  dsimp only
  rw [← hlength]
  refine (map_getD_transpose ?_).trans (map_stored_readColumn _)
  simp [hcells, hheader]

/-- In a column of numbers, a literal is stored as the number that it is in a query exactly
if the column keeps it. If it keeps all of them, a constant selects the rows in which its
number is written. -/
theorem ofDelimited?_numbers {cells : List (List Char)}
    (h : ofDelimited? label delimiter text = .ok r) (hi : i < r.arity)
    (hcells : cellTexts delimiter text i = cells) (hnumbers : NumberColumn cells) :
    (∀ row ∈ r.rows.zip cells, isMissing row.2 = false →
        ((row.1.getD i .null).same (Token.numberConstant row.2).value = true ↔
          Keeps cells row.2)) ∧
      ((∀ cs ∈ cells, isMissing cs = false → Keeps cells cs) →
        ∀ (a : Atom) (c : Constant) (head : List String), a.relation = some r → a.Selects i c →
          a.scan head = .ok ⟨Head.ofVars (a.columnsIn head),
            ((r.rows.zip cells).filter fun row =>
              !isMissing row.2 && c.value.same (Token.numberConstant row.2).value).map
                fun row => a.picked head row.1⟩) := by
  have hread : List.Forall₂ (fun row cs => row.getD i .null = reader cells cs) r.rows cells := by
    have hcolumn := map_cell_ofDelimited? h hi
    rw [hcells, readColumn, ← List.forall₂_eq_eq_eq, List.forall₂_map_left_iff,
      List.forall₂_map_right_iff] at hcolumn
    exact hcolumn
  obtain ⟨hlength, hzip⟩ := List.forall₂_iff_zip.mp hread
  have hcell : ∀ row ∈ r.rows.zip cells, row.2 ∈ cells ∧
      row.1.getD i .null = reader cells row.2 :=
    fun row hrow => ⟨(List.of_mem_zip hrow).2, hzip hrow⟩
  refine ⟨fun row hrow hpresent => ?_, fun hkeeps a c head hr ha => ?_⟩
  · obtain ⟨hmem, hvalue⟩ := hcell row hrow
    rw [hvalue]
    exact reader_same_iff hnumbers hmem hpresent
  · have hrows : r.rows = (r.rows.zip cells).map Prod.fst :=
      (List.map_fst_zip hlength.le).symm
    have hfilter : (r.rows.zip cells).filter
          (fun row => !isMissing row.2 && c.value.same (Token.numberConstant row.2).value) =
        (r.rows.zip cells).filter fun row => c.value.same (row.1.getD i .null) := by
      refine List.filter_congr fun row hrow => ?_
      obtain ⟨hmem, hvalue⟩ := hcell row hrow
      rw [hvalue, same_reader_eq hnumbers hkeeps hmem]
    rw [Atom.scan_of_selects hr ha, hfilter]
    conv_lhs => rw [hrows, List.filter_map, List.map_map]
    rfl

/-- An integer beside a float is found, since the float that it is stored as is the same. -/
theorem ofDelimited?_numbers_integerBesideFloat :
    ∃ (r : Relation) (a : Atom), ofDelimited? "R" ',' "x,y\n1,10\n2.5,20\n" = .ok r ∧
      a.relation = some r ∧ a.terms = [.constant (.int 1), .variable "y"] ∧
      a.scan ["y"] = .ok ⟨Head.ofVars ["y"], (r.rows.take 1).map (a.picked ["y"])⟩ := by
  have hshape : (ofDelimited? "R" ',' "x,y\n1,10\n2.5,20\n").map
      (fun r => (r.arity, r.rows.length)) = .ok (2, 2) := by decide +kernel
  have hcells : cellTexts ',' "x,y\n1,10\n2.5,20\n" 0 = [['1'], ['2', '.', '5']] := by
    decide +kernel
  have hnumbers : NumberColumn [['1'], ['2', '.', '5']] := by
    intro cs hcs _
    rcases List.mem_pair.mp hcs with rfl | rfl
    · exact Or.inl (Or.inl ⟨by decide, by simp⟩)
    · exact Or.inl (Or.inr ⟨['2'], ['5'], rfl, ⟨by decide, by simp⟩, by decide, by simp⟩)
  have hfloating : Floating [['1'], ['2', '.', '5']] :=
    ⟨[['1']], ['2', '.', '5'], [], rfl, by decide, by decide,
      Or.inl (List.forall_mem_singleton.mpr (Or.inr ⟨by decide, by decide⟩))⟩
  have hkeeps : ∀ cs ∈ [['1'], ['2', '.', '5']], isMissing cs = false →
      Keeps [['1'], ['2', '.', '5']] cs := by
    intro cs hcs _
    rcases List.mem_pair.mp hcs with rfl | rfl
    · exact Or.inr (Or.inr ⟨hfloating, Or.inr ⟨1, 0, by decide, by decide, by decide⟩⟩)
    · exact Or.inr (Or.inr ⟨hfloating, Or.inl (by decide)⟩)
  cases hr : ofDelimited? "R" ',' "x,y\n1,10\n2.5,20\n" with
  | error e =>
      rw [hr] at hshape
      cases hshape
  | ok r =>
      rw [hr] at hshape
      obtain ⟨harity, hlength⟩ := Prod.mk.inj (Except.ok.inj hshape)
      obtain ⟨row, row', hrows⟩ := List.length_eq_two.mp hlength
      let a : Atom := ⟨"R", [.constant (.int 1), .variable "y"], some r, by
        rintro _ ⟨⟩
        exact harity.symm⟩
      have hselects : a.Selects 0 (.int 1) := by
        refine ⟨rfl, ?_, List.nodup_singleton "y"⟩
        rintro (_ | _ | j) t ht hj
        · exact absurd rfl hj
        · cases ht
          rfl
        · cases ht
      have hscan := (ofDelimited?_numbers hr (by omega) hcells hnumbers).2 hkeeps a (.int 1) ["y"]
        rfl hselects
      have hsame : (Constant.int 1).value.same (Token.numberConstant ['1']).value = true ∧
          (Constant.int 1).value.same (Token.numberConstant ['2', '.', '5']).value = false := by
        decide +kernel
      have hpresent : isMissing ['1'] = false := by decide
      refine ⟨r, a, rfl, rfl, rfl, ?_⟩
      rw [hscan, hrows]
      simp [hsame, hpresent]
      rfl

/-- An integer of 54 bits beside a float is rounded, so that its own row is not found. -/
theorem ofDelimited?_numbers_roundedInteger :
    cellTexts ',' "x,y\n9007199254740993,1\n0.5,2\n" 0 =
        ["9007199254740993".toList, "0.5".toList] ∧
      (ofDelimited? "R" ',' "x,y\n9007199254740993,1\n0.5,2\n").map (fun r =>
        r.rows.map fun row =>
          (row.getD 0 .null).same (Token.numberConstant "9007199254740993".toList).value) =
        .ok [false, false] ∧
      (((ofDelimited? "R" ',' "x,y\n9007199254740993,1\n0.5,2\n").toOption.bind fun r =>
        (Atom.bound? "R" [.constant (Token.numberConstant "9007199254740993".toList),
          .variable "y"] r).toOption).bind fun a =>
        (a.scan ["y"]).toOption.map fun b => b.rows.length) = some 0 := by
  refine ⟨?_, ?_, ?_⟩ <;> decide +kernel

end Relation

end Conjunctive
