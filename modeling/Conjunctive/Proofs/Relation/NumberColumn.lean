import Conjunctive.Relation.CellText
import Conjunctive.Proofs.Lists
import Conjunctive.Proofs.Number.Decimal
import Conjunctive.Proofs.Query.Numbers
import Conjunctive.Proofs.Query.Pieces

/-!
# Columns of numbers

Cells that are missing or number literals make a column of integers, of floats or of texts.
A literal keeps its number if all cells are integers of 64 bits (`AllSigned`, `AllUnsigned`),
or if the column is read as floats (`Floating`) and the literal has a point or is an exact
integer (`Keeps`); but beside a missing cell the least integer is lost. In all other columns
the literals become texts. `reader_same_iff` compares what is read with the constant that the
literal is in a query.
-/

namespace Conjunctive

open Token (Digits)

namespace Literal

variable {ds : List Char}

/-- A minus sign, or nothing. -/
def minus (negative : Bool) : List Char := if negative then ['-'] else []

theorem exists_body {cs : List Char} (h : (Token.number cs).Fits) :
    ∃ negative ds, cs = minus negative ++ ds ∧ Token.Decimal ds := by
  rcases h with h | ⟨ds, rfl, h⟩
  · exact ⟨false, cs, rfl, h⟩
  · exact ⟨true, ds, rfl, h⟩

theorem point_notMem_digits (h : Digits ds) : '.' ∉ ds := fun hpoint =>
  absurd (h.2 '.' hpoint) (by decide)

theorem point_mem_minus_append {negative : Bool} : '.' ∈ minus negative ++ ds ↔ '.' ∈ ds := by
  cases negative <;> simp [minus]

theorem splitSign_minus (negative : Bool) (h : Token.Decimal ds) :
    splitSign (minus negative ++ ds) = (negative, ds) := by
  obtain ⟨d, es, rfl, hd⟩ := h.exists_cons
  cases negative
  · exact splitSign_of_isDigit hd es
  · rfl

theorem int?_minus (negative : Bool) (h : Digits ds) :
    int? (minus negative ++ ds) = some (signed negative (natural ds)) := by
  rw [int?, splitSign_minus negative (Or.inl h)]
  exact if_pos ⟨h.1, List.all_eq_true.mpr h.2⟩

theorem mantissa?_digits (h : Digits ds) : mantissa? ds = some (ds, 0, []) := by
  have htake : ds.takeWhile Char.isDigit = ds := List.takeWhile_eq_self_iff.mpr h.2
  have hdrop : ds.dropWhile Char.isDigit = [] := List.dropWhile_eq_nil_iff.mpr h.2
  simp [mantissa?, htake, hdrop, h.1]

theorem mantissa?_point {whole fraction : List Char} (hwhole : Digits whole)
    (hfraction : Digits fraction) :
    mantissa? (whole ++ '.' :: fraction) = some (whole ++ fraction, fraction.length, []) := by
  have htake : (whole ++ '.' :: fraction).takeWhile Char.isDigit = whole := by
    rw [List.takeWhile_append_of_pos hwhole.2, List.takeWhile_cons_of_neg (by decide),
      List.append_nil]
  have hdrop : (whole ++ '.' :: fraction).dropWhile Char.isDigit = '.' :: fraction := by
    rw [List.dropWhile_append_of_pos hwhole.2, List.dropWhile_cons_of_neg (by decide)]
  have htake' : fraction.takeWhile Char.isDigit = fraction :=
    List.takeWhile_eq_self_iff.mpr hfraction.2
  have hdrop' : fraction.dropWhile Char.isDigit = [] := List.dropWhile_eq_nil_iff.mpr hfraction.2
  simp [mantissa?, htake, hdrop, htake', hdrop', hwhole.1]

theorem float?_minus (negative : Bool) (h : Digits ds) :
    float? (minus negative ++ ds) = some (scaled negative (natural ds) 0) := by
  rw [float?, splitSign_minus negative (Or.inl h)]
  change (mantissa? ds >>= _) = _
  rw [mantissa?_digits h]
  rfl

theorem isSome_float? {cs : List Char} (h : (Token.number cs).Fits) :
    (float? cs).isSome = true := by
  obtain ⟨negative, ds, rfl, hds⟩ := exists_body h
  rcases hds with hds | ⟨whole, fraction, rfl, hwhole, hfraction⟩
  · rw [float?_minus negative hds]
    rfl
  · rw [float?, splitSign_minus negative (Or.inr ⟨_, _, rfl, hwhole, hfraction⟩)]
    change (mantissa? _ >>= _).isSome = true
    rw [mantissa?_point hwhole hfraction]
    rfl

end Literal

namespace CellText

open Literal (minus)

/-- The integer that a cell without a point is. -/
def integer (cs : List Char) : Int := (Literal.int? cs).getD 0

variable {cs : List Char} {cells : List (List Char)}

theorem isBlank_of_mem (h : (Token.number cs).Fits) : ∀ c ∈ cs, ¬ isBlank c = true := by
  intro c hc hblank
  have hpart := (Token.toNat_of_isWordPart (h.isWordPart trivial c hc)).1
  rcases Bool.or_eq_true_iff.mp hblank with hspace | hrange
  · rw [beq_iff_eq.mp hspace] at hpart
    exact absurd hpart (by decide)
  · simp only [Bool.and_eq_true, decide_eq_true_eq] at hrange
    omega

theorem dropWhile_isBlank (h : (Token.number cs).Fits) : cs.dropWhile isBlank = cs :=
  List.dropWhile_eq_self_iff.mpr fun hpos => isBlank_of_mem h _ (List.getElem_mem hpos)

theorem trim_eq_self (h : (Token.number cs).Fits) : trim cs = cs := by
  have hreverse : cs.reverse.dropWhile isBlank = cs.reverse :=
    List.dropWhile_eq_self_iff.mpr fun hpos =>
      isBlank_of_mem h _ (List.mem_reverse.mp (List.getElem_mem hpos))
  rw [trim, dropWhile_isBlank h, hreverse, List.reverse_reverse]

/-- A literal is read as a float in the same way as a constant. -/
theorem float?_eq (h : (Token.number cs).Fits) : float? cs = some ((Literal.float? cs).getD 0) := by
  obtain ⟨x, hx⟩ := Option.isSome_iff_exists.mp (Literal.isSome_float? h)
  rw [float?, trim_eq_self h, hx]
  rfl

/-- A literal with a point is not taken for an integer. -/
theorem sized_of_point (h : (Token.number cs).Fits) (hpoint : '.' ∈ cs) (fits : Int → Bool) :
    sized fits cs = .notInteger := by
  obtain ⟨negative, ds, rfl, hds⟩ := Literal.exists_body h
  rw [sized, dropWhile_isBlank h, Literal.splitSign_minus negative hds]
  rcases hds with hds | ⟨whole, fraction, rfl, hwhole, -⟩
  · exact absurd (Literal.point_mem_minus_append.mp hpoint) (Literal.point_notMem_digits hds)
  · refine if_pos (Or.inr ?_)
    rw [List.dropWhile_append_of_pos hwhole.2, List.dropWhile_cons_of_neg (by decide)]
    rfl

theorem sized_of_whole (h : (Token.number cs).Fits) (hpoint : '.' ∉ cs) (fits : Int → Bool) :
    sized fits cs = if fits (integer cs) then .fits (integer cs) else .tooLarge := by
  obtain ⟨negative, ds, rfl, hds⟩ := Literal.exists_body h
  rcases hds with hds | ⟨whole, fraction, rfl, -⟩
  · have htake : ds.takeWhile Char.isDigit = ds := List.takeWhile_eq_self_iff.mpr hds.2
    have hdrop : ds.dropWhile Char.isDigit = [] := List.dropWhile_eq_nil_iff.mpr hds.2
    rw [sized, dropWhile_isBlank h, Literal.splitSign_minus negative (Or.inl hds), integer,
      Literal.int?_minus negative hds]
    dsimp only
    rw [htake, hdrop, if_neg (by simp [hds.1])]
    rfl
  · exact absurd (by simp) hpoint

/-! ### Columns -/

/-- The cells that are not missing are number literals. -/
def NumberColumn (cells : List (List Char)) : Prop :=
  ∀ cs ∈ cells, isMissing cs = false → (Token.number cs).Fits

/-- A missing cell, or an integer of 64 bits with a sign. -/
def PassesSigned (cs : List Char) : Prop :=
  isMissing cs = true ∨ '.' ∉ cs ∧ ColumnType.isSigned64 (integer cs) = true

/-- What does not show that a column without signs is none: a missing cell, one that begins
with a minus sign, or an integer of 64 bits without a sign. -/
def PassesUnsigned (cs : List Char) : Prop :=
  isMissing cs = true ∨ cs.head? = some '-' ∨
    '.' ∉ cs ∧ ColumnType.isUnsigned64 (integer cs) = true

/-- All cells are missing or integers of 64 bits with a sign. -/
def AllSigned (cells : List (List Char)) : Prop := ∀ cs ∈ cells, PassesSigned cs

/-- No cell is missing or negative, and all are integers of 64 bits without a sign. -/
def AllUnsigned (cells : List (List Char)) : Prop :=
  ∀ cs ∈ cells, isMissing cs = false ∧ cs.head? ≠ some '-' ∧ PassesUnsigned cs

/-- A cell with a point comes before what would make the column one of texts. -/
def Floating (cells : List (List Char)) : Prop :=
  ∃ before cs after, cells = before ++ cs :: after ∧ isMissing cs = false ∧ '.' ∈ cs ∧
    (AllSigned before ∨ cs.head? ≠ some '-' ∧ ∀ ds ∈ before, PassesUnsigned ds)

/-- Whether a literal keeps its number in a column. -/
def Keeps (cells : List (List Char)) (cs : List Char) : Prop :=
  AllSigned cells ∧ (integer cs = -Int.pow 2 63 → ∀ ds ∈ cells, isMissing ds = false) ∨
    AllUnsigned cells ∨
    Floating cells ∧ ('.' ∈ cs ∨ Binary64.Exact (integer cs).natAbs)

/-- The cells that are not missing. -/
def present (cells : List (List Char)) : List (List Char) := cells.filter fun cs => !isMissing cs

theorem signedColumn_append {before : List (List Char)} (hnumbers : NumberColumn before)
    (h : AllSigned before) (rest : List (List Char)) :
    ∃ ns, signedColumn (present before ++ rest) = (signedColumn rest).map (ns ++ ·) := by
  induction before with
  | nil => exact ⟨[], by cases h : signedColumn rest <;> simp [present, h, Except.map]⟩
  | cons cs before ih =>
      obtain ⟨ns, hns⟩ := ih (fun ds hds => hnumbers ds (List.mem_cons_of_mem cs hds))
        fun ds hds => h ds (List.mem_cons_of_mem cs hds)
      by_cases hmissing : isMissing cs = true
      · exact ⟨ns, by rw [← hns, present, List.filter_cons_of_neg (by simp [hmissing])]; rfl⟩
      · have hfits := hnumbers cs List.mem_cons_self (by simpa using hmissing)
        obtain ⟨hpoint, hsigned⟩ := (h cs List.mem_cons_self).resolve_left hmissing
        refine ⟨integer cs :: ns, ?_⟩
        rw [present, List.filter_cons_of_pos (by simpa using hmissing), List.cons_append,
          signedColumn, sized_of_whole hfits hpoint, if_pos hsigned]
        change (signedColumn (present before ++ rest)).map _ = _
        rw [hns]
        cases signedColumn rest <;> rfl

theorem present_append_cons {before after : List (List Char)} (hpresent : isMissing cs = false) :
    present (before ++ cs :: after) = present before ++ cs :: present after := by
  rw [present, List.filter_append, List.filter_cons_of_pos (by simp [hpresent])]
  rfl

/-- How a column is read in which an integer is too large for a sign. -/
def readLarge (cells : List (List Char)) : List Char → Value :=
  match unsignedColumn ⟨false, false, false⟩ [] cells with
  | .words _ => unsignedCell
  | .mixed => verbatim
  | .unlimited => readUnlimited (present cells)
  | .notIntegers => readOther (present cells)

theorem reader_eq (cells : List (List Char)) :
    reader cells =
      match signedColumn (present cells) with
      | .ok _ => readWith (signedCell (decide ((present cells).length < cells.length)))
      | .error .tooLarge => readLarge cells
      | .error _ => readOther (present cells) := rfl

theorem reader_of_allSigned (hnumbers : NumberColumn cells) (h : AllSigned cells) :
    reader cells =
      readWith (signedCell (decide ((present cells).length < cells.length))) := by
  obtain ⟨ns, hns⟩ := signedColumn_append hnumbers h []
  rw [List.append_nil] at hns
  rw [reader_eq, hns]
  rfl

/-- The first cell that is no integer of 64 bits decides how a column is read. -/
theorem signedColumn_append_cons {before after : List (List Char)}
    (hnumbers : NumberColumn (before ++ cs :: after)) (hbefore : AllSigned before)
    (hpresent : isMissing cs = false) (hcs : ¬ PassesSigned cs) :
    signedColumn (present (before ++ cs :: after)) =
      .error (if '.' ∈ cs then .notInteger else .tooLarge) := by
  have hfits : (Token.number cs).Fits := hnumbers cs (by simp) hpresent
  obtain ⟨ns, hns⟩ := signedColumn_append
    (fun ds hds => hnumbers ds (List.mem_append_left _ hds)) hbefore (cs :: present after)
  rw [present_append_cons hpresent, hns, signedColumn]
  split_ifs with hpoint
  · rw [sized_of_point hfits hpoint]
    rfl
  · have hlarge : ¬ ColumnType.isSigned64 (integer cs) = true :=
      fun hsigned => hcs (Or.inr ⟨hpoint, hsigned⟩)
    rw [sized_of_whole hfits hpoint, if_neg hlarge]
    rfl

/-! ### Columns without signs -/

/-- What is known of a column without signs after another cell. -/
def noted (seen : CellText.Unsigned) (cs : List Char) : CellText.Unsigned :=
  if isMissing cs then { seen with missing := true }
  else if cs.head? = some '-' then { seen with negative := true }
  else { seen with large := seen.large || !ColumnType.isSigned64 (integer cs) }

theorem unsignedColumn_append {before : List (List Char)} (hnumbers : NumberColumn before)
    (h : ∀ ds ∈ before, PassesUnsigned ds) (rest : List (List Char)) (seen : CellText.Unsigned)
    (ns : List Int) :
    ∃ ns', unsignedColumn seen ns (before ++ rest) =
      unsignedColumn (before.foldl noted seen) ns' rest := by
  induction before generalizing seen ns with
  | nil => exact ⟨ns, rfl⟩
  | cons cs before ih =>
      have hih := ih (fun ds hds => hnumbers ds (List.mem_cons_of_mem cs hds))
        fun ds hds => h ds (List.mem_cons_of_mem cs hds)
      rw [List.cons_append, unsignedColumn, List.foldl_cons, noted]
      by_cases hmissing : isMissing cs = true
      · rw [if_pos hmissing, if_pos hmissing]
        exact hih _ _
      · have hfits := hnumbers cs List.mem_cons_self (by simpa using hmissing)
        rw [if_neg hmissing, if_neg hmissing, dropWhile_isBlank hfits]
        by_cases hminus : cs.head? = some '-'
        · rw [if_pos hminus, if_pos hminus]
          exact hih _ _
        · obtain ⟨hpoint, hunsigned⟩ :=
            ((h cs List.mem_cons_self).resolve_left hmissing).resolve_left hminus
          rw [if_neg hminus, if_neg hminus, sized_of_whole hfits hpoint, if_pos hunsigned]
          exact hih _ _

theorem unsignedColumn_of_not_passes (hfits : (Token.number cs).Fits) (h : ¬ PassesUnsigned cs)
    (seen : CellText.Unsigned) (ns : List Int) (rest : List (List Char)) :
    unsignedColumn seen ns (cs :: rest) = if '.' ∈ cs then .notIntegers else .unlimited := by
  unfold PassesUnsigned at h
  rw [not_or, not_or] at h
  rw [unsignedColumn, if_neg h.1, dropWhile_isBlank hfits, if_neg h.2.1]
  split_ifs with hpoint
  · rw [sized_of_point hfits hpoint]
  · have hlarge : ¬ ColumnType.isUnsigned64 (integer cs) = true :=
      fun hunsigned => h.2.2 ⟨hpoint, hunsigned⟩
    rw [sized_of_whole hfits hpoint, if_neg hlarge]

theorem foldl_noted (seen : CellText.Unsigned) :
    cells.foldl noted seen =
      { large := seen.large || cells.any fun cs =>
          !isMissing cs && cs.head? != some '-' && !ColumnType.isSigned64 (integer cs)
        negative := seen.negative || cells.any fun cs => !isMissing cs && cs.head? == some '-'
        missing := seen.missing || cells.any isMissing } := by
  induction cells generalizing seen with
  | nil => simp
  | cons cs cells ih =>
      rw [List.foldl_cons, ih, noted]
      split_ifs with hmissing hminus
      · simp [hmissing]
      · simp [hmissing, hminus]
      · have hne : (cs.head? == some '-') = false := beq_eq_false_iff_ne.mpr hminus
        simp [hmissing, hne, bne, Bool.or_assoc]

/-- What a column without signs is depends on the kinds of its cells only. -/
theorem unsignedColumn_of_passes (hnumbers : NumberColumn cells)
    (h : ∀ ds ∈ cells, PassesUnsigned ds) :
    ∃ ns, unsignedColumn ⟨false, false, false⟩ [] cells =
      unsignedColumn
        { large := cells.any fun ds =>
            !isMissing ds && ds.head? != some '-' && !ColumnType.isSigned64 (integer ds)
          negative := cells.any fun ds => !isMissing ds && ds.head? == some '-'
          missing := cells.any isMissing } ns [] := by
  obtain ⟨ns, hns⟩ := unsignedColumn_append hnumbers h [] ⟨false, false, false⟩ []
  rw [List.append_nil, foldl_noted] at hns
  exact ⟨ns, by simpa using hns⟩

theorem readLarge_of_allUnsigned (hnumbers : NumberColumn cells) (h : AllUnsigned cells) :
    readLarge cells = unsignedCell := by
  obtain ⟨ns, hns⟩ := unsignedColumn_of_passes hnumbers fun ds hds => (h ds hds).2.2
  have hminus : cells.any (fun ds => !isMissing ds && ds.head? == some '-') = false := by
    rw [List.any_eq_false]
    intro ds hds
    simp [(h ds hds).2.1]
  have hmissing : cells.any isMissing = false := by
    rw [List.any_eq_false]
    intro ds hds
    simp [(h ds hds).1]
  rw [hminus, hmissing, unsignedColumn, Bool.or_false, Bool.and_false,
    if_neg Bool.false_ne_true, if_neg Bool.false_ne_true] at hns
  rw [readLarge, hns]

theorem readUnlimited_eq (hpresent : isMissing cs = false) (ds : List (List Char)) :
    ∃ s, readUnlimited ds cs = .text s := by
  unfold readUnlimited
  split_ifs
  · exact ⟨_, by rw [readWith, if_neg (by simp [hpresent])]⟩
  · exact ⟨_, rfl⟩

/-- Beside a missing cell or one with a minus sign, a large integer makes the column one of
texts. -/
theorem readLarge_of_not_allUnsigned (hnumbers : NumberColumn cells)
    (h : ∀ ds ∈ cells, PassesUnsigned ds) (hcs : cs ∈ cells) (hpresent : isMissing cs = false)
    (hlarge : ColumnType.isSigned64 (integer cs) = false) (hnot : ¬ AllUnsigned cells)
    {ds : List Char} (hds : isMissing ds = false) : ∃ s, readLarge cells ds = .text s := by
  obtain ⟨ns, hns⟩ := unsignedColumn_of_passes hnumbers h
  rw [unsignedColumn] at hns
  by_cases hminus : cells.any (fun ds => !isMissing ds && ds.head? == some '-') = true
  · rw [hminus, Bool.true_or, Bool.and_true, if_pos rfl] at hns
    rw [readLarge, hns]
    split_ifs
    · exact ⟨_, rfl⟩
    · exact readUnlimited_eq hds _
  · -- without a minus sign, the large integer is seen, and some cell is missing
    rw [List.any_eq_true, not_exists] at hminus
    have hsome : cells.any (fun ds => !isMissing ds && ds.head? != some '-' &&
        !ColumnType.isSigned64 (integer ds)) = true := by
      refine List.any_eq_true.mpr ⟨cs, hcs, ?_⟩
      have hhead := hminus cs
      simp only [hcs, hpresent, true_and, Bool.not_false, Bool.true_and, beq_iff_eq] at hhead
      simp [hpresent, hlarge, hhead]
    have hmissing : cells.any isMissing = true := by
      by_contra hnone
      rw [List.any_eq_true, not_exists] at hnone
      refine hnot fun ds hds => ?_
      have hpresent : isMissing ds = false := by simpa [hds] using hnone ds
      exact ⟨hpresent, by simpa [hds, hpresent] using hminus ds, h ds hds⟩
    rw [hsome, hmissing, Bool.or_true, Bool.and_true, if_pos rfl] at hns
    rw [readLarge, hns]
    exact ⟨_, rfl⟩

/-- The first cell that shows that a column is none without signs decides how it is read. -/
theorem readLarge_append_cons {before after : List (List Char)}
    (hnumbers : NumberColumn (before ++ cs :: after)) (hbefore : ∀ ds ∈ before, PassesUnsigned ds)
    (hcs : ¬ PassesUnsigned cs) :
    readLarge (before ++ cs :: after) =
      if '.' ∈ cs then readOther (present (before ++ cs :: after))
      else readUnlimited (present (before ++ cs :: after)) := by
  have hpresent : isMissing cs = false := Bool.eq_false_iff.mpr fun h => hcs (Or.inl h)
  obtain ⟨ns, hns⟩ := unsignedColumn_append
    (fun ds hds => hnumbers ds (List.mem_append_left _ hds)) hbefore (cs :: after)
    ⟨false, false, false⟩ []
  rw [unsignedColumn_of_not_passes (hnumbers cs (by simp) hpresent) hcs] at hns
  rw [readLarge, hns]
  split_ifs <;> rfl

/-! ### What is read -/

/-- A float denotes a number, an infinity or no number. -/
theorem denotationOfFloat_cases (x : Float) :
    (∃ q, Value.denotationOfFloat x = .number q) ∨
      (∃ negative, Value.denotationOfFloat x = .infinity negative) ∨
      Value.denotationOfFloat x = .notANumber 0 := by
  unfold Value.denotationOfFloat
  cases Binary64.parts x <;> simp [Binary64.Parts.rat?]

theorem text_same_constant (s : String) (cs : List Char) :
    ¬ (Value.text s).same (Token.numberConstant cs).value = true := by
  rw [Value.same_iff, Token.numberConstant]
  split_ifs
  · rcases denotationOfFloat_cases ((Literal.float? cs).getD 0) with ⟨q, h⟩ | ⟨b, h⟩ | h <;>
      simp [Value.denotation, Constant.value, h]
  · simp [Value.denotation, Constant.value]

theorem constant_same_null (c : Constant) : c.value.same .null = false := by
  cases c with
  | float x =>
      rcases denotationOfFloat_cases x with ⟨q, h⟩ | ⟨b, h⟩ | h <;>
        simp [Value.same, Value.denotation, Constant.value, h]
  | _ => rfl

theorem numberConstant_of_point (h : '.' ∈ cs) :
    Token.numberConstant cs = .float ((Literal.float? cs).getD 0) :=
  if_pos (List.contains_iff_mem.mpr h)

theorem numberConstant_of_whole (h : '.' ∉ cs) : Token.numberConstant cs = .int (integer cs) :=
  if_neg fun hcontains => h (List.contains_iff_mem.mp hcontains)

/-- The float that a literal is has the number of the constant unless digits are lost. -/
theorem float_same_constant_iff (h : (Token.number cs).Fits) :
    (Value.float ((Literal.float? cs).getD 0)).same (Token.numberConstant cs).value = true ↔
      '.' ∈ cs ∨ Binary64.Exact (integer cs).natAbs := by
  by_cases hpoint : '.' ∈ cs
  · rw [numberConstant_of_point hpoint]
    exact iff_of_true (Value.same_refl _) (Or.inl hpoint)
  · obtain ⟨negative, ds, rfl, hds | ⟨whole, fraction, rfl, -⟩⟩ := Literal.exists_body h
    · rw [numberConstant_of_whole hpoint, integer, Literal.int?_minus negative hds,
        Literal.float?_minus negative hds, or_iff_right hpoint, Value.same_iff]
      have hsize : (Literal.signed negative (Literal.natural ds)).natAbs = Literal.natural ds := by
        cases negative <;> simp [Literal.signed]
      rw [Option.getD_some, Option.getD_some, hsize]
      exact Binary64.denotation_scaled_eq_iff
    · exact absurd (by simp) hpoint

theorem readOther_eq (hnumbers : NumberColumn cells) (hcs : cs ∈ cells)
    (hpresent : isMissing cs = false) :
    readOther (present cells) cs = .float ((Literal.float? cs).getD 0) := by
  have hall : (present cells).all (fun ds => (float? ds).isSome) = true := by
    rw [List.all_eq_true]
    intro ds hds
    obtain ⟨hds, hpresent⟩ := List.mem_filter.mp hds
    rw [float?_eq (hnumbers ds hds (by simpa using hpresent))]
    rfl
  rw [readOther, if_pos hall, readWith, if_neg (by simp [hpresent]),
    float?_eq (hnumbers cs hcs hpresent)]
  rfl

theorem isNumber_of_infinity? {x : Float} (h : infinity? cs = some x) : Binary64.IsNumber x := by
  unfold infinity? at h
  unfold Binary64.IsNumber
  split at h <;> cases h <;> decide +kernel

theorem isNumber_getD_float? (cs : List Char) : Binary64.IsNumber ((float? cs).getD 0) := by
  unfold float?
  split
  next x hx => exact Binary64.isNumber_of_float? hx
  next =>
    cases hinfinity : infinity? cs with
    | none => exact Binary64.isNumber_zero
    | some x => exact isNumber_of_infinity? hinfinity

section Definite

variable {read : List Char → Value} (cells : List (List Char)) (cs : List Char)

theorem isNotANumber_readWith (h : (read cs).isNotANumber = false) :
    (readWith read cs).isNotANumber = false := by
  rw [readWith]
  split_ifs
  · rfl
  · exact h

theorem isNotANumber_signedCell (missing : Bool) :
    (signedCell missing cs).isNotANumber = false := by
  rw [signedCell]
  split
  · split_ifs <;> rfl
  · rfl

theorem isNotANumber_unsignedCell : (unsignedCell cs).isNotANumber = false := by
  rw [unsignedCell]
  split <;> rfl

theorem isNotANumber_readOther : (readOther cells cs).isNotANumber = false := by
  refine isNotANumber_readWith cs ?_
  split_ifs
  · exact Binary64.isNotANumber_eq (isNumber_getD_float? cs) 0
  · rfl
  · rfl

theorem isNotANumber_readUnlimited : (readUnlimited cells cs).isNotANumber = false := by
  rw [readUnlimited]
  split_ifs
  · exact isNotANumber_readWith cs rfl
  · rfl

theorem isNotANumber_readLarge : (readLarge cells cs).isNotANumber = false := by
  rw [readLarge]
  cases unsignedColumn ⟨false, false, false⟩ [] cells with
  | words => exact isNotANumber_unsignedCell cs
  | mixed => rfl
  | unlimited => exact isNotANumber_readUnlimited _ cs
  | notIntegers => exact isNotANumber_readOther _ cs

/-- No cell is read as a float that is not a number. -/
theorem isNotANumber_reader : (reader cells cs).isNotANumber = false := by
  rw [reader_eq]
  cases signedColumn (present cells) with
  | ok => exact isNotANumber_readWith cs (isNotANumber_signedCell cs _)
  | error fault =>
      cases fault with
      | tooLarge => exact isNotANumber_readLarge cells cs
      | _ => exact isNotANumber_readOther _ cs

end Definite

/-! ### Columns of floats -/

theorem not_passesSigned_of_point (hpresent : isMissing cs = false) (hpoint : '.' ∈ cs) :
    ¬ PassesSigned cs := by
  rintro (hmissing | ⟨hnone, -⟩)
  · rw [hpresent] at hmissing
    cases hmissing
  · exact hnone hpoint

theorem not_passesUnsigned_of_point (hpresent : isMissing cs = false) (hpoint : '.' ∈ cs)
    (hminus : cs.head? ≠ some '-') : ¬ PassesUnsigned cs := by
  rintro (hmissing | hhead | ⟨hnone, -⟩)
  · rw [hpresent] at hmissing
    cases hmissing
  · exact hminus hhead
  · exact hnone hpoint

theorem AllSigned.not_floating (h : AllSigned cells) : ¬ Floating cells := by
  rintro ⟨before, cs, after, rfl, hpresent, hpoint, -⟩
  exact not_passesSigned_of_point hpresent hpoint (h cs (by simp))

theorem AllUnsigned.not_floating (h : AllUnsigned cells) : ¬ Floating cells := by
  rintro ⟨before, cs, after, rfl, hpresent, hpoint, -⟩
  obtain ⟨-, hminus, hpasses⟩ := h cs (by simp)
  exact not_passesUnsigned_of_point hpresent hpoint hminus hpasses

/-- If a large integer comes first, then what makes a column one of floats is the first cell
that shows that it is no column without signs. -/
theorem Floating.exists_first {before after : List (List Char)}
    (h : Floating (before ++ cs :: after)) (hbefore : AllSigned before) (hcs : ¬ PassesSigned cs)
    (hpoint : '.' ∉ cs) :
    ∃ before' ds after', before ++ cs :: after = before' ++ ds :: after' ∧ '.' ∈ ds ∧
      (∀ es ∈ before', PassesUnsigned es) ∧ ¬ PassesUnsigned ds := by
  obtain ⟨before', ds, after', heq, hpresent, hds, hbefore' | ⟨hminus, hbefore'⟩⟩ := h
  · have hsame := first_unique heq hbefore hbefore' hcs (not_passesSigned_of_point hpresent hds)
    rw [hsame] at hpoint
    exact absurd hds hpoint
  · exact ⟨before', ds, after', heq, hds, hbefore',
      not_passesUnsigned_of_point hpresent hds hminus⟩

/-- How a column of numbers is read. -/
inductive ReadsAs (cells : List (List Char)) : Prop
  | signed (all : AllSigned cells)
      (read : reader cells = readWith (signedCell (decide ((present cells).length < cells.length))))
  | unsigned (all : AllUnsigned cells) (read : reader cells = unsignedCell)
  | floats (some : Floating cells) (read : reader cells = readOther (present cells))
  | texts (notSigned : ¬ AllSigned cells) (notUnsigned : ¬ AllUnsigned cells)
      (notFloating : ¬ Floating cells)
      (read : ∀ cs, isMissing cs = false → ∃ s, reader cells cs = .text s)

/-- A column in which a large integer comes before any point. -/
theorem readsAs_of_large {before after : List (List Char)}
    (hnumbers : NumberColumn (before ++ cs :: after)) (hbefore : AllSigned before)
    (hpresent : isMissing cs = false) (hcs : ¬ PassesSigned cs) (hpoint : '.' ∉ cs) :
    ReadsAs (before ++ cs :: after) := by
  have hread : reader (before ++ cs :: after) = readLarge (before ++ cs :: after) := by
    rw [reader_eq, signedColumn_append_cons hnumbers hbefore hpresent hcs, if_neg hpoint]
  have hfloating := fun h : Floating (before ++ cs :: after) =>
    h.exists_first hbefore hcs hpoint
  have hmem : cs ∈ before ++ cs :: after := by simp
  have hsigned : ¬ AllSigned (before ++ cs :: after) := fun hall => hcs (hall cs hmem)
  have hlarge : ColumnType.isSigned64 (integer cs) = false :=
    Bool.eq_false_iff.mpr fun h => hcs (Or.inr ⟨hpoint, h⟩)
  generalize before ++ cs :: after = cells at *
  rcases forall_or_exists_first PassesUnsigned cells with
    hall | ⟨before', ds, after', rfl, hbefore', hds⟩
  · by_cases hunsigned : AllUnsigned cells
    · exact .unsigned hunsigned (hread.trans (readLarge_of_allUnsigned hnumbers hunsigned))
    · refine .texts hsigned hunsigned (fun h => ?_) fun ds hds => ?_
      · obtain ⟨before', ds, after', rfl, -, -, hds⟩ := hfloating h
        exact hds (hall ds (by simp))
      · rw [hread]
        exact readLarge_of_not_allUnsigned hnumbers hall hmem hpresent hlarge hunsigned hds
  · have hlargeRead := readLarge_append_cons hnumbers hbefore' hds
    by_cases hpoint' : '.' ∈ ds
    · rw [if_pos hpoint'] at hlargeRead
      have hpresent' : isMissing ds = false := Bool.eq_false_iff.mpr fun h => hds (Or.inl h)
      exact .floats ⟨before', ds, after', rfl, hpresent', hpoint',
        Or.inr ⟨fun h => hds (Or.inr (Or.inl h)), hbefore'⟩⟩ (hread.trans hlargeRead)
    · rw [if_neg hpoint'] at hlargeRead
      refine .texts hsigned (fun h => hds (h ds (by simp)).2.2) (fun h => ?_) fun es hes => ?_
      · obtain ⟨before₂, es, after₂, heq, hes, hbefore₂, hnot⟩ := hfloating h
        rw [first_unique heq hbefore' hbefore₂ hds hnot] at hpoint'
        exact hpoint' hes
      · rw [hread, hlargeRead]
        exact readUnlimited_eq hes _

theorem readsAs (hnumbers : NumberColumn cells) : ReadsAs cells := by
  rcases forall_or_exists_first PassesSigned cells with
    hall | ⟨before, cs, after, rfl, hbefore, hcs⟩
  · exact .signed hall (reader_of_allSigned hnumbers hall)
  · have hpresent : isMissing cs = false := Bool.eq_false_iff.mpr fun h => hcs (Or.inl h)
    by_cases hpoint : '.' ∈ cs
    · refine .floats ⟨before, cs, after, rfl, hpresent, hpoint, Or.inl hbefore⟩ ?_
      rw [reader_eq, signedColumn_append_cons hnumbers hbefore hpresent hcs, if_pos hpoint]
    · exact readsAs_of_large hnumbers hbefore hpresent hcs hpoint

theorem length_present_lt_iff :
    (present cells).length < cells.length ↔ ∃ ds ∈ cells, isMissing ds = true := by
  rw [present, List.length_filter_lt_length_iff_exists]
  simp

/-- An integer of a signed column is lost only if it is the least one and marks a missing
cell. -/
theorem signedCell_same_iff (hfits : (Token.number cs).Fits) (hpoint : '.' ∉ cs)
    (hsigned : ColumnType.isSigned64 (integer cs) = true) (missing : Bool) :
    (signedCell missing cs).same (Token.numberConstant cs).value = true ↔
      ¬ (missing = true ∧ integer cs = -Int.pow 2 63) := by
  rw [signedCell, sized_of_whole hfits hpoint, if_pos hsigned, numberConstant_of_whole hpoint]
  dsimp only
  by_cases hlost : missing = true ∧ integer cs = -Int.pow 2 63
  · rw [if_pos (by simpa using hlost), Value.same_iff]
    exact iff_of_false nofun (not_not_intro hlost)
  · rw [if_neg (by simpa using hlost)]
    exact iff_of_true (Value.same_refl _) hlost

/-- A literal of a column of numbers is stored as the number that it is in a query exactly if
the column keeps it. -/
theorem reader_same_iff (hnumbers : NumberColumn cells) (hcs : cs ∈ cells)
    (hpresent : isMissing cs = false) :
    (reader cells cs).same (Token.numberConstant cs).value = true ↔ Keeps cells cs := by
  have hfits := hnumbers cs hcs hpresent
  have hmissing : ¬ isMissing cs = true := by simp [hpresent]
  unfold Keeps
  rcases readsAs hnumbers with ⟨hall, hread⟩ | ⟨hall, hread⟩ | ⟨hsome, hread⟩ |
    ⟨hsigned, hunsigned, hfloating, hread⟩
  · obtain ⟨hpoint, hsigned⟩ := (hall cs hcs).resolve_left hmissing
    have hfloating := hall.not_floating
    rw [hread, readWith, if_neg hmissing, signedCell_same_iff hfits hpoint hsigned,
      decide_eq_true_iff, length_present_lt_iff]
    constructor
    · intro hkept
      refine Or.inl ⟨hall, fun hleast ds hds => ?_⟩
      exact Bool.eq_false_iff.mpr fun hmissing => hkept ⟨⟨ds, hds, hmissing⟩, hleast⟩
    · rintro (⟨-, hkept⟩ | hunsigned | ⟨hsome, -⟩) ⟨⟨ds, hds, hmissing⟩, hleast⟩
      · exact Bool.false_ne_true ((hkept hleast ds hds).symm.trans hmissing)
      · exact Bool.false_ne_true ((hunsigned ds hds).1.symm.trans hmissing)
      · exact hfloating hsome
  · obtain ⟨-, hminus, hpasses⟩ := hall cs hcs
    obtain ⟨hpoint, hunsigned⟩ := (hpasses.resolve_left hmissing).resolve_left hminus
    rw [hread, unsignedCell, sized_of_whole hfits hpoint, if_pos hunsigned,
      numberConstant_of_whole hpoint]
    exact iff_of_true (Value.same_refl _) (Or.inr (Or.inl hall))
  · rw [hread, readOther_eq hnumbers hcs hpresent, float_same_constant_iff hfits]
    have hsigned : ¬ AllSigned cells := fun h => h.not_floating hsome
    have hunsigned : ¬ AllUnsigned cells := fun h => h.not_floating hsome
    simp [hsigned, hunsigned, hsome]
  · obtain ⟨s, hs⟩ := hread cs hpresent
    rw [hs]
    exact iff_of_false (text_same_constant s cs) (by simp [hsigned, hunsigned, hfloating])

/-- In a column that keeps its numbers, missing cells are stored as such. -/
theorem reader_of_missing (hnumbers : NumberColumn cells)
    (hkeeps : ∀ ds ∈ cells, isMissing ds = false → Keeps cells ds) (hcs : cs ∈ cells)
    (hmissing : isMissing cs = true) : reader cells cs = .null := by
  rcases readsAs hnumbers with ⟨hall, hread⟩ | ⟨hall, hread⟩ | ⟨hsome, hread⟩ |
    ⟨hsigned, hunsigned, hfloating, -⟩
  · rw [hread, readWith, if_pos hmissing]
  · rw [(hall cs hcs).1] at hmissing
    cases hmissing
  · rw [hread, readOther, readWith, if_pos hmissing]
  · refine absurd (fun ds hds => ?_) hsigned
    by_contra hpasses
    have hkept := hkeeps ds hds (Bool.eq_false_iff.mpr fun h => hpasses (Or.inl h))
    simp [Keeps, hsigned, hunsigned, hfloating] at hkept

/-- In a column that keeps its numbers, a constant is the same as the cells in which its
number is written. -/
theorem same_reader_eq (hnumbers : NumberColumn cells)
    (hkeeps : ∀ ds ∈ cells, isMissing ds = false → Keeps cells ds) (hcs : cs ∈ cells)
    (c : Constant) : c.value.same (reader cells cs) =
      (!isMissing cs && c.value.same (Token.numberConstant cs).value) := by
  by_cases hmissing : isMissing cs = true
  · rw [reader_of_missing hnumbers hkeeps hcs hmissing, constant_same_null, hmissing]
    rfl
  · rw [Bool.not_eq_true] at hmissing
    have hsame := (reader_same_iff hnumbers hcs hmissing).mpr (hkeeps cs hcs hmissing)
    rw [hmissing, Value.same, Value.same, Value.same_iff.mp hsame]
    rfl

end CellText

end Conjunctive
