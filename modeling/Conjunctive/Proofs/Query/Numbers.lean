import Conjunctive.Query.Literal
import Conjunctive.Proofs.Report.Numerals
import Conjunctive.Proofs.Query.Spelling

/-!
# Numbers written as tokens

The text of an integer is a number token, which is read as this integer. The text of
a finite float is a number token if it has no exponent: digits on both sides of a
point, so that it is never read as an integer.
-/

namespace Conjunctive

/-! ### Integers -/

namespace Literal

theorem natural_toDigits (n : Nat) : natural (Nat.toDigits 10 n) = n :=
  Nat.ofDigitChars_ten_toDigits

theorem splitSign_of_isDigit {c : Char} (h : c.isDigit = true) (cs : List Char) :
    splitSign (c :: cs) = (false, c :: cs) := by
  unfold splitSign
  split
  next heq => exact absurd h (by simp [(List.cons.inj heq).1])
  next heq => exact absurd h (by simp [(List.cons.inj heq).1])
  next => rfl

end Literal

namespace Token

theorem digits_toDigits (n : Nat) : Digits (Nat.toDigits 10 n) :=
  ⟨Nat.toDigits_ne_nil, fun _ hd => Nat.isDigit_of_mem_toDigits (by decide) (by decide) hd⟩

theorem toList_toString_nat (n : Nat) : (toString n).toList = Nat.toDigits 10 n := by
  rw [Nat.toString_eq_ofList_toDigits, String.toList_ofList]

theorem toList_toString_negSucc (n : Nat) :
    (toString (Int.negSucc n)).toList = '-' :: Nat.toDigits 10 (n + 1) := by
  change ("-" ++ toString (n + 1)).toList = _
  rw [String.toList_append, toList_toString_nat]
  rfl

/-- An integer is written as a number token. -/
theorem fits_int (n : Int) : (number (toString n).toList).Fits := by
  cases n with
  | ofNat n => exact Or.inl (Or.inl (toList_toString_nat n ▸ digits_toDigits n))
  | negSucc n => exact Or.inr ⟨_, toList_toString_negSucc n, Or.inl (digits_toDigits (n + 1))⟩

theorem point_notMem_int (n : Int) : '.' ∉ (toString n).toList := by
  intro h
  cases isIntegerSign_of_mem_toString h

/-- The digits of an integer are those of its magnitude. -/
theorem filter_isDigit_int (n : Int) :
    (toString n).toList.filter Char.isDigit = Nat.toDigits 10 n.natAbs := by
  cases n with
  | ofNat n =>
      change (toString n).toList.filter Char.isDigit = _
      rw [toList_toString_nat, List.filter_eq_self.mpr (digits_toDigits n).2]
      rfl
  | negSucc n =>
      rw [toList_toString_negSucc, List.filter_cons_of_neg (by decide),
        List.filter_eq_self.mpr (digits_toDigits (n + 1)).2]
      rfl

theorem int?_toString (n : Int) : Literal.int? (toString n).toList = some n := by
  have hdigits : ∀ m : Nat, Nat.toDigits 10 m ≠ [] ∧ (Nat.toDigits 10 m).all Char.isDigit = true :=
    fun m => ⟨(digits_toDigits m).1, List.all_eq_true.mpr (digits_toDigits m).2⟩
  cases n with
  | ofNat n =>
      obtain ⟨d, ds, hd⟩ := List.exists_cons_of_ne_nil (digits_toDigits n).1
      have hsign : Literal.splitSign (Nat.toDigits 10 n) = (false, Nat.toDigits 10 n) := by
        rw [hd]
        exact Literal.splitSign_of_isDigit ((digits_toDigits n).2 d (by simp [hd])) ds
      change Literal.int? (toString n).toList = _
      rw [toList_toString_nat, Literal.int?, hsign]
      dsimp only
      rw [if_pos (hdigits n), Literal.natural_toDigits]
      rfl
  | negSucc n =>
      rw [toList_toString_negSucc, Literal.int?, Literal.splitSign]
      dsimp only
      rw [if_pos (hdigits (n + 1)), Literal.natural_toDigits]
      rfl

/-- An integer is read as it was written. -/
theorem numberConstant_int (n : Int) : numberConstant (toString n).toList = .int n := by
  have hpoint : ¬ (toString n).toList.contains '.' = true := by
    rw [List.contains_iff_mem]
    exact point_notMem_int n
  rw [numberConstant, if_neg hpoint, int?_toString]
  rfl

/-! ### Floats -/

/-- Digits, a point and digits. -/
def PointDecimal (ds : List Char) : Prop :=
  ∃ whole fraction, ds = whole ++ '.' :: fraction ∧ Digits whole ∧ Digits fraction

theorem Digits.append {ds es : List Char} (hds : Digits ds) (hes : ∀ e ∈ es, e.isDigit = true) :
    Digits (ds ++ es) :=
  ⟨List.append_ne_nil_of_left_ne_nil hds.1 es, fun d hd =>
    (List.mem_append.mp hd).elim (hds.2 d) (hes d)⟩

theorem isDigit_of_mem_zeros {n : Nat} {c : Char} (h : c ∈ List.replicate n '0') :
    c.isDigit = true := by
  rw [List.eq_of_mem_replicate h]
  rfl

/-- In positional notation there are digits on both sides of the point. -/
theorem pointDecimal_positional {digits : List Char} (h : Digits digits) (leading : Int) :
    PointDecimal (FloatStyle.positional digits leading).toList := by
  have hzero : Digits ['0'] := ⟨List.cons_ne_nil _ _, by simp⟩
  unfold FloatStyle.positional
  dsimp only
  split_ifs with hneg hlong
  · refine ⟨['0'], List.replicate (leading.natAbs - 1) '0' ++ digits, by simp, hzero, ?_⟩
    refine ⟨List.append_ne_nil_of_right_ne_nil _ h.1, fun d hd => ?_⟩
    exact (List.mem_append.mp hd).elim isDigit_of_mem_zeros (h.2 d)
  · refine ⟨digits ++ List.replicate (leading.toNat + 1 - digits.length) '0', ['0'], by simp,
      h.append fun _ => isDigit_of_mem_zeros, hzero⟩
  · refine ⟨digits.take (leading.toNat + 1), digits.drop (leading.toNat + 1), by simp,
      ⟨?_, fun d hd => h.2 d (List.mem_of_mem_take hd)⟩,
      ⟨?_, fun d hd => h.2 d (List.mem_of_mem_drop hd)⟩⟩
    · rw [Ne, List.take_eq_nil_iff, not_or]
      exact ⟨Nat.succ_ne_zero _, h.1⟩
    · rw [Ne, List.drop_eq_nil_iff]
      exact hlong

/-- A magnitude without an exponent is written in positional notation. -/
theorem pointDecimal_magnitude {significand : Nat} {exponent : Int}
    (h : 'e' ∉ (FloatStyle.cell.magnitude significand exponent).toList) :
    PointDecimal (FloatStyle.cell.magnitude significand exponent).toList := by
  unfold FloatStyle.magnitude at h ⊢
  dsimp only at h ⊢
  split_ifs at h ⊢
  · exact pointDecimal_positional (digits_toDigits _) _
  · simp [FloatStyle.scientific] at h

/-- A finite float that has no exponent when it is written. -/
structure IsPositional (x : Float) : Prop where
  finite : ∃ negative significand exponent,
    Binary64.parts x = .finite negative significand exponent
  exponent_free : 'e' ∉ (FloatStyle.cell.write x).toList

variable {x : Float}

/-- A finite float without an exponent is written with a point, perhaps behind a minus
sign. -/
theorem IsPositional.pointDecimal (h : IsPositional x) : ∃ ds, PointDecimal ds ∧
    ((FloatStyle.cell.write x).toList = ds ∨ (FloatStyle.cell.write x).toList = '-' :: ds) := by
  obtain ⟨⟨negative, significand, exponent, hparts⟩, hfree⟩ := h
  have hwrite : (FloatStyle.cell.write x).toList = (if negative then ['-'] else []) ++
      (FloatStyle.cell.magnitude significand exponent).toList := by
    rw [FloatStyle.write, hparts]
    cases negative <;> simp
  rw [hwrite, List.mem_append, not_or] at hfree
  refine ⟨_, pointDecimal_magnitude hfree.2, ?_⟩
  rw [hwrite]
  cases negative
  · exact Or.inl rfl
  · exact Or.inr rfl

theorem IsPositional.fits (h : IsPositional x) :
    (number (FloatStyle.cell.write x).toList).Fits := by
  obtain ⟨ds, hds, hwrite | hwrite⟩ := h.pointDecimal
  · exact Or.inl (Or.inr (hwrite ▸ hds))
  · exact Or.inr ⟨ds, hwrite, Or.inr hds⟩

theorem IsPositional.point_mem (h : IsPositional x) : '.' ∈ (FloatStyle.cell.write x).toList := by
  obtain ⟨ds, ⟨whole, fraction, rfl, -, -⟩, hwrite | hwrite⟩ := h.pointDecimal <;> simp [hwrite]

/-- If the text of a float reads back, the float is read as it was written. -/
theorem IsPositional.numberConstant_eq (h : IsPositional x)
    (hread : Literal.float? (FloatStyle.cell.write x).toList = some x) :
    numberConstant (FloatStyle.cell.write x).toList = .float x := by
  rw [numberConstant, if_pos (List.contains_iff_mem.mpr h.point_mem), hread]
  rfl

end Token

end Conjunctive
