import Conjunctive.Proofs.Lists
import Conjunctive.Query.Resolve
import Conjunctive.Relation.ColumnType

/-!
# Relations made of rows

Rows that are as wide as there are column names make a relation, which keeps the rows
and their order. Rows without cells are counted in any case, but a library for tables may
not hand them out. The relation keeps the column names as well, unless there are no rows:
then only the first of several equal names stays. The types of the columns are told by
name, so there a repeated name stays once in any case. What is kept of a list of column
names is settled in `ofRows?_keeps`, together with the atoms that may range over the
relation.
-/

namespace Conjunctive

namespace Relation

variable {name : Option String} {columns : List String} {rows : List Row} {handsOut : Bool}

/-- Rows are refused for the first of them that is not as wide as the columns. -/
theorem ofRows?_eq_error_iff {n : Nat} : ofRows? name columns rows handsOut = .error n ↔
    ∃ before row after, rows = before ++ row :: after ∧
      (∀ r ∈ before, r.length = columns.length) ∧ row.length = n ∧ n ≠ columns.length := by
  have hfind : ofRows? name columns rows handsOut = .error n ↔
      ∃ row, rows.find? (fun r => r.length != columns.length) = some row ∧ row.length = n := by
    rw [ofRows?]
    split
    next row heq => simp [heq]
    next heq => split_ifs <;> simp [heq]
  simp only [hfind, List.find?_eq_some_iff_append, bne_iff_ne, Bool.not_eq_true',
    bne_eq_false_iff_eq]
  constructor
  · rintro ⟨row, ⟨hrow, before, after, rfl, hbefore⟩, rfl⟩
    exact ⟨before, row, after, rfl, hbefore, rfl, hrow⟩
  · rintro ⟨before, row, after, rfl, hbefore, rfl, hrow⟩
    exact ⟨row, ⟨hrow, before, after, rfl, hbefore⟩, rfl⟩

/-- The rows that a relation made of some rows hands out. -/
def kept (columns : List String) (rows : List Row) (handsOut : Bool) : List Row :=
  if columns = [] ∧ handsOut = false then [] else rows.map (·.map Value.stored)

theorem kept_of_not_bare (h : ¬ (columns.isEmpty && !handsOut) = true) :
    kept columns rows handsOut = rows.map (·.map Value.stored) := by
  refine if_neg fun hbare => h ?_
  rw [hbare.1, hbare.2]
  rfl

theorem kept_eq_iff : kept columns rows handsOut = rows.map (·.map Value.stored) ↔
    columns ≠ [] ∨ rows = [] ∨ handsOut = true := by
  rw [kept]
  split_ifs with hbare
  · simp [hbare, eq_comm]
  · refine iff_of_true rfl ?_
    rw [not_and_or, Bool.not_eq_false] at hbare
    exact hbare.imp_right Or.inr

/-- Rows as wide as the columns make a relation. -/
theorem exists_ofRows?_eq_ok (handsOut : Bool) (h : ∀ row ∈ rows, row.length = columns.length) :
    ∃ r, ofRows? name columns rows handsOut = .ok r ∧ r.name = name ∧ r.size = rows.length ∧
      r.rows = kept columns rows handsOut ∧
      r.columns = if rows = [] then columns.eraseDups else columns := by
  have hfind : rows.find? (fun r => r.length != columns.length) = none :=
    List.find?_eq_none.mpr fun row hrow => by simp [h row hrow]
  rw [ofRows?]
  split
  next row heq => exact absurd (hfind.symm.trans heq) nofun
  next heq =>
    split
    next hempty =>
      obtain rfl := List.isEmpty_iff.mp hempty
      exact ⟨_, rfl, rfl, rfl, (ite_self _).symm, rfl⟩
    next hempty =>
      rw [if_neg fun hnil => hempty (List.isEmpty_iff.mpr hnil)]
      split
      next hbare =>
        rw [Bool.and_eq_true, List.isEmpty_iff, Bool.not_eq_true'] at hbare
        exact ⟨_, rfl, rfl, Nat.zero_add _, (if_pos hbare).symm, rfl⟩
      next hbare => exact ⟨_, rfl, rfl, List.length_map _, (kept_of_not_bare hbare).symm, rfl⟩

/-- Each name among some columns is found with the last of what belongs to it. -/
theorem exists_find?_zip {β : Type} {bs : List β} (h : columns.length = bs.length) {c : String}
    (hc : c ∈ columns) :
    ∃ b, (columns.zip bs).reverse.find? (fun p => p.1 == c) = some (c, b) := by
  rw [← List.map_fst_zip (Nat.le_of_eq h)] at hc
  obtain ⟨p, hp, rfl⟩ := List.mem_map.mp hc
  have hsome : ((columns.zip bs).reverse.find? fun q => q.1 == p.1).isSome :=
    List.find?_isSome.mpr ⟨p, List.mem_reverse.mpr hp, beq_self_eq_true p.1⟩
  obtain ⟨q, hq⟩ := Option.isSome_iff_exists.mp hsome
  have hname : q.1 = p.1 := by simpa using List.find?_some hq
  exact ⟨q.2, by rw [hq, ← hname]⟩

theorem length_typesByPosition? {r : Relation} {types : List ColumnType}
    (h : r.typesByPosition? = some types) : types.length = r.arity := by
  rw [typesByPosition?, Option.bind_eq_bind, Option.bind_eq_some_iff] at h
  obtain ⟨found, hfound, h⟩ := h
  have hlength := length_of_mapM_eq_some hfound
  rw [List.length_range] at hlength
  split_ifs at h
  · cases h
    rw [List.length_map, hlength]
  · cases h
    exact hlength

/-- If the types of the columns are told, they are told once for each name. -/
theorem map_fst_columnTypes? {r : Relation} {types : List (String × ColumnType)}
    (h : r.columnTypes? = some types) : types.map Prod.fst = r.columns.eraseDups := by
  rw [columnTypes?, Option.map_eq_some_iff] at h
  obtain ⟨found, hfound, rfl⟩ := h
  have hname : ∀ c ∈ r.columns.eraseDups, ((r.columns.zip found).reverse.find?
      fun p => p.1 == c).map Prod.fst = some c := by
    intro c hc
    obtain ⟨t, ht⟩ :=
      exists_find?_zip (length_typesByPosition? hfound).symm (List.mem_eraseDups.mp hc)
    rw [ht]
    rfl
  rw [List.map_filterMap, List.filterMap_congr hname]
  exact List.filterMap_some

/-- Atoms may have as many terms as the relation has columns. -/
theorem exists_bound?_iff (r : Relation) (predicate : String) (terms : List Term) :
    (∃ a, Atom.bound? predicate terms r = .ok a) ↔ terms.length = r.arity := by
  rw [Atom.bound?]
  split_ifs with h <;> simp [h]

/-- What a relation has of the rows and the column names that it is made of. -/
structure MadeOf (r : Relation) (columns : List String) (rows : List Row) (handsOut : Bool) :
    Prop where
  size_eq : r.size = rows.length
  /-- All rows are handed out, unless they have no cells and the library only counts them. -/
  rows_eq : r.rows = kept columns rows handsOut
  rows_iff : r.rows = rows.map (·.map Value.stored) ↔ columns ≠ [] ∨ rows = [] ∨ handsOut = true
  width_eq : ∀ row ∈ r.rows, row.length = r.arity
  /-- Column names are lost only if there are no rows, and then repeated ones are. -/
  columns_eq : r.columns = if rows = [] then columns.eraseDups else columns
  columns_iff : r.columns = columns ↔ rows ≠ [] ∨ columns.Nodup
  /-- Atoms have a term for each of the column names just if none was lost. -/
  bound_iff : (∀ predicate terms, (∃ a, Atom.bound? predicate terms r = .ok a) ↔
    terms.length = columns.length) ↔ rows ≠ [] ∨ columns.Nodup
  /-- The types of the columns are told by name. -/
  types_eq : ∀ types, r.columnTypes? = some types → types.map Prod.fst = columns.eraseDups
  types_iff : ∀ types, r.columnTypes? = some types →
    (types.map Prod.fst = columns ↔ columns.Nodup)

theorem madeOf {r : Relation} (hsize : r.size = rows.length)
    (hrows : r.rows = kept columns rows handsOut)
    (hcolumns : r.columns = if rows = [] then columns.eraseDups else columns) :
    r.MadeOf columns rows handsOut := by
  have hiff : r.columns = columns ↔ rows ≠ [] ∨ columns.Nodup := by
    rw [hcolumns]
    split_ifs with hnil <;> simp [hnil, eraseDups_eq_self_iff]
  have htypes : ∀ types, r.columnTypes? = some types → types.map Prod.fst = columns.eraseDups := by
    intro types h
    rw [map_fst_columnTypes? h, hcolumns]
    split_ifs
    · exact eraseDups_eq_self_iff.mpr (nodup_eraseDups columns)
    · rfl
  have harity : r.arity = columns.length ↔ rows ≠ [] ∨ columns.Nodup := by
    rw [← hiff]
    refine ⟨fun h => ?_, congrArg List.length⟩
    have hsub : r.columns.Sublist columns := by
      rw [hcolumns]
      split_ifs
      · exact eraseDups_sublist columns
      · exact List.Sublist.refl columns
    exact hsub.eq_of_length h
  refine ⟨hsize, hrows, ?_, r.width_eq, hcolumns, hiff, ?_, htypes, fun types h => ?_⟩
  · rw [hrows]
    exact kept_eq_iff
  · rw [← harity]
    simp only [exists_bound?_iff]
    refine ⟨fun h => ?_, fun h _ _ => by rw [h]⟩
    have hterms := h "" (List.replicate r.arity (.variable ""))
    rwa [List.length_replicate, eq_self, true_iff] at hterms
  · rw [htypes types h, eraseDups_eq_self_iff]

/-- Rows are refused exactly if one of them is not as wide as the columns, and for the
first such row. Otherwise they are kept, unless they have no cells and the library only
counts such rows, and so are the column names unless there are no rows and a name is
repeated. -/
theorem ofRows?_keeps (name : Option String) (columns : List String) (rows : List Row)
    (handsOut : Bool) :
    (∀ n, ofRows? name columns rows handsOut = .error n ↔
        ∃ before row after, rows = before ++ row :: after ∧
          (∀ r ∈ before, r.length = columns.length) ∧ row.length = n ∧ n ≠ columns.length) ∧
      ((∀ row ∈ rows, row.length = columns.length) →
        ∃ r, ofRows? name columns rows handsOut = .ok r ∧ r.name = name ∧
          r.MadeOf columns rows handsOut) := by
  refine ⟨fun n => ofRows?_eq_error_iff, fun h => ?_⟩
  obtain ⟨r, hr, hname, hsize, hrows, hcolumns⟩ := exists_ofRows?_eq_ok handsOut h
  exact ⟨r, hr, hname, madeOf hsize hrows hcolumns⟩

/-- Two columns of one name are one column without rows, and two with a row, but the types
of the columns are told for one of them. -/
theorem ofRows?_repeatedName :
    (ofRows? none ["a", "a"] []).map (fun r => (r.columns, r.arity)) = .ok (["a"], 1) ∧
      (ofRows? none ["a", "a"] [[.null, .null]]).map (fun r =>
        (r.columns, r.arity, r.columnTypes?.map (·.map Prod.fst))) =
          .ok (["a", "a"], 2, some ["a"]) := by
  decide

end Relation

end Conjunctive
