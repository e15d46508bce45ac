import Conjunctive.Value.Basic
import Conjunctive.Number.Literal
import Mathlib.Algebra.Order.Field.Power
import Mathlib.Tactic.NormNum

/-!
# Integers that are binary64 numbers

A natural number is a binary64 number if it is a significand of at most 53 bits times a
power of two that is in range (`Exact`). An integer that is read as a float keeps its value
exactly then. One half of this reads the fields of a float whose value is an integer; the
other half follows the rounding of an exact integer, in which only zeros are shifted out.
-/

open Float.Model Float.Model.UnpackedFloat

namespace Conjunctive

namespace Binary64

/-- A significand of at most 53 bits times a power of two that is in range. -/
def Exact (n : Nat) : Prop := ∃ m k, n = m * 2 ^ k ∧ m < 2 ^ 53 ∧ k ≤ 971

variable {m n : Nat} {e : Int} {x : Float}

/-! ### Parts -/

/-- The parts of an unpacked number. -/
def partsOf : UnpackedFloat → Parts
  | .infinity s => .infinite (s == .negative)
  | .notANumber => .notANumber
  | .zero s => .finite (s == .negative) 0 (-1074)
  | .finite s m e _ => .finite (s == .negative) m e

theorem toNat_one_append {w : Nat} (b : BitVec w) : (1#1 ++ b).toNat = 2 ^ w + b.toNat := by
  rw [BitVec.toNat_append, ← Nat.shiftLeft_add_eq_or_of_lt b.isLt, Nat.shiftLeft_eq]
  simp

theorem toNat_eq_iff {w n : Nat} {b c : BitVec w} (h : c.toNat = n) : b.toNat = n ↔ b = c := by
  rw [← h, BitVec.toNat_inj]

theorem toNat_unpackMantissa (b : BitVec 64) :
    (@unpackMantissa .binary64 b).toNat = b.toNat % Nat.pow 2 52 := by
  simp [unpackMantissa, BitVec.extractLsb]

theorem toNat_unpackExponent (b : BitVec 64) :
    (@unpackExponent .binary64 b).toNat = b.toNat / Nat.pow 2 52 % Nat.pow 2 11 := by
  simp [unpackExponent, BitVec.extractLsb, Nat.shiftRight_eq_div_pow]

theorem unpackSign_eq_negative (b : BitVec 64) :
    (Sign.ofBitVec (@unpackSign .binary64 b) == .negative) =
      decide (Nat.pow 2 63 ≤ b.toNat) := by
  have hlt : b.toNat < 2 ^ 64 := b.isLt
  have hbit : (@unpackSign .binary64 b).toNat = b.toNat / 2 ^ 63 % 2 := by
    change (BitVec.extractLsb' 63 1 b).toNat = _
    rw [BitVec.extractLsb'_toNat, Nat.shiftRight_eq_div_pow]
  by_cases hb : 2 ^ 63 ≤ b.toNat
  · have hone : @unpackSign .binary64 b = 1#1 := by
      apply BitVec.eq_of_toNat_eq
      rw [hbit, BitVec.toNat_ofNat]
      omega
    rw [hone]
    exact (decide_eq_true hb).symm
  · have hzero : @unpackSign .binary64 b = 0#1 := by
      apply BitVec.eq_of_toNat_eq
      rw [hbit, BitVec.toNat_ofNat]
      omega
    rw [hzero]
    exact (decide_eq_false hb).symm

/-- The parts read off the bits are those that are computed with. -/
theorem parts_eq (x : Float) : parts x = partsOf x.toModel.unpack := by
  have hbits : x.toBits.toNat = x.toModel.toBits.toBitVec.toNat := rfl
  change _ = partsOf (UnpackedFloat.unpack .binary64 x.toModel.toBits.toBitVec)
  rw [parts, hbits]
  generalize x.toModel.toBits.toBitVec = b
  have hmax : (@unpackExponent .binary64 b).toNat = 2047 ↔ @unpackExponent .binary64 b = -1#_ :=
    toNat_eq_iff rfl
  have hleast : (@unpackExponent .binary64 b).toNat = 0 ↔ @unpackExponent .binary64 b = 0#_ :=
    toNat_eq_iff rfl
  have hempty : (@unpackMantissa .binary64 b).toNat = 0 ↔ @unpackMantissa .binary64 b = 0#_ :=
    toNat_eq_iff rfl
  rw [← toNat_unpackMantissa, ← toNat_unpackExponent, ← unpackSign_eq_negative]
  unfold UnpackedFloat.unpack
  dsimp only
  by_cases hexponent : @unpackExponent .binary64 b = -1#_
  · rw [if_pos (hmax.mpr hexponent), if_pos hexponent]
    by_cases hmantissa : @unpackMantissa .binary64 b = 0#_
    · rw [if_pos (hempty.mpr hmantissa), if_pos hmantissa]
      rfl
    · rw [if_neg (mt hempty.mp hmantissa), if_neg hmantissa]
      rfl
  rw [if_neg (mt hmax.mp hexponent), if_neg hexponent]
  by_cases hzero : @unpackExponent .binary64 b = 0#_
  · rw [if_pos (hleast.mpr hzero), if_pos hzero]
    by_cases hmantissa : @unpackMantissa .binary64 b = 0#_
    · rw [dif_pos hmantissa, hmantissa]
      rfl
    · rw [dif_neg hmantissa, hzero]
      rfl
  · rw [if_neg (mt hleast.mp hzero), if_neg hzero]
    exact congrArg (Parts.finite _ · _) (toNat_one_append _).symm

theorem parts_finite {negative : Bool} (h : parts x = .finite negative m e) :
    m < 2 ^ 53 ∧ e ≤ 971 := by
  unfold parts at h
  dsimp only at h
  have hfraction : x.toBits.toNat % Nat.pow 2 52 < 2 ^ 52 := Nat.mod_lt _ (by decide)
  have hfield : x.toBits.toNat / Nat.pow 2 52 % Nat.pow 2 11 < 2 ^ 11 := Nat.mod_lt _ (by decide)
  split_ifs at h with hmax hempty hleast
  · cases h
    omega
  · cases h
    change 2 ^ 52 + _ < 2 ^ 53 ∧ _
    omega

/-- A float whose value is an integer has few significant bits. -/
theorem exact_of_denotation {n : Int} (h : Value.denotationOfFloat x = .number n) :
    Exact n.natAbs := by
  unfold Value.denotationOfFloat at h
  cases hparts : parts x with
  | infinite negative => simp [hparts] at h
  | notANumber => simp [hparts] at h
  | finite negative m e =>
      obtain ⟨hm, he⟩ := parts_finite hparts
      have hsize : (0 : Rat) ≤ m * 2 ^ e := by positivity
      have hvalue : (n.natAbs : Rat) = m * 2 ^ e := by
        simp only [hparts, Parts.rat?, Denotation.number.injEq] at h
        rw [Nat.cast_natAbs, Int.cast_abs, ← h]
        cases negative
        · exact abs_of_nonneg hsize
        · exact (abs_neg _).trans (abs_of_nonneg hsize)
      rcases Int.le_total 0 e with hpos | hneg
      · obtain ⟨k, rfl⟩ := Int.eq_ofNat_of_zero_le hpos
        refine ⟨m, k, ?_, hm, by omega⟩
        rw [zpow_natCast] at hvalue
        exact_mod_cast hvalue
      · -- the integer is no larger than the significand
        refine ⟨n.natAbs, 0, by simp, lt_of_le_of_lt ?_ hm, by omega⟩
        rw [← Nat.cast_le (α := Rat), hvalue]
        exact mul_le_of_le_one_right (by positivity) (zpow_le_one_of_nonpos₀ (by norm_num) hneg)

/-! ### Normal numbers -/

/-- A significand of 53 bits and an exponent in range. -/
structure Normal (m : Nat) (e : Int) : Prop where
  log2_eq : m.log2 = 52
  lower : -1074 ≤ e
  upper : e ≤ 971

theorem finite_congr {s s' : Sign} {m m' : Nat} {e e' : Int} {hm : 0 < m} {hm' : 0 < m'}
    (hs : s = s') (h : m = m') (h' : e = e') :
    UnpackedFloat.finite s m e hm = UnpackedFloat.finite s' m' e' hm' := by
  subst hs h h'
  rfl

theorem sign_packComponents (s : Sign) (b : BitVec 11) (c : BitVec 52) :
    Sign.ofBitVec (unpackSign (packComponents .binary64 s b c)) = s := by
  have hbit : unpackSign (packComponents .binary64 s b c) = s.toBitVec := by
    change BitVec.extractLsb' 63 1 (s.toBitVec ++ b ++ c) = s.toBitVec
    rw [BitVec.append_assoc]
    exact BitVec.extractLsb'_append_eq_left
  rw [hbit]
  cases s <;> rfl

theorem unpack_packComponents {s : Sign} {b : BitVec 11} {c : BitVec 52} (hb : b.toNat ≠ 0)
    (hb' : b.toNat ≠ 2047) :
    UnpackedFloat.unpack .binary64 (packComponents .binary64 s b c) =
      .finite s (2 ^ 52 + c.toNat) (b.toNat - 1075) (by omega) := by
  have hmax : b ≠ -1#11 := by
    rintro rfl
    exact hb' rfl
  have hleast : b ≠ 0#11 := by
    rintro rfl
    exact hb rfl
  have hbias : (Format.binary64.exponentBias : Int) + (52 : Nat) = 1075 := rfl
  unfold UnpackedFloat.unpack
  dsimp only
  rw [unpackExponent_packComponents, if_neg hmax, if_neg hleast]
  refine finite_congr (sign_packComponents s b c) ?_ ?_
  · rw [unpackMantissa_packComponents]
    exact toNat_one_append c
  · rw [hbias]

namespace Normal

theorem two_pow_le (h : Normal m e) : 2 ^ 52 ≤ m ∧ m < 2 ^ 53 := by
  have hne : m ≠ 0 := by
    rintro rfl
    exact absurd h.log2_eq (by decide)
  exact (Nat.log2_eq_iff hne).mp h.log2_eq

theorem pos (h : Normal m e) : 0 < m := by
  have := h.two_pow_le
  omega

theorem pack_eq (h : Normal m e) (s : Sign) (hm : 0 < m) :
    UnpackedFloat.pack .binary64 (.finite s m e hm) =
      packComponents .binary64 s (BitVec.ofNat 11 (e + 1075).toNat) (BitVec.ofNat 52 m) := by
  obtain ⟨hlog, hlower, hupper⟩ := h
  have hbiased : (e + Format.binary64.exponentBias + (52 : Nat)).toNat = (e + 1075).toNat := by
    change (e + (1023 : Nat) + (52 : Nat)).toNat = _
    omega
  unfold UnpackedFloat.pack
  dsimp only
  rw [hbiased, hlog, if_neg (by omega), if_pos (by rfl)]

/-- A normal number is not changed by packing it. -/
theorem unpack_pack (h : Normal m e) (s : Sign) (hm : 0 < m) :
    (Float.Model.pack (.finite s m e hm)).unpack = .finite s m e hm := by
  obtain ⟨hle, hlt⟩ := h.two_pow_le
  have hlower := h.lower
  have hupper := h.upper
  have hfield : (BitVec.ofNat 11 (e + 1075).toNat).toNat = (e + 1075).toNat :=
    BitVec.toNat_ofNat _ _ ▸ Nat.mod_eq_of_lt (by omega)
  have hexponent : ((BitVec.ofNat 11 (e + 1075).toNat).toNat : Int) - 1075 = e := by
    omega
  have hmantissa : 2 ^ 52 + (BitVec.ofNat 52 m).toNat = m := by
    rw [BitVec.toNat_ofNat]
    omega
  change UnpackedFloat.unpack .binary64 (UnpackedFloat.pack .binary64 _) = _
  rw [h.pack_eq, unpack_packComponents (by omega) (by omega)]
  exact finite_congr rfl hmantissa hexponent

end Normal

/-! ### Rounding what needs no rounding -/

theorem log2_mul_two_pow (hm : m ≠ 0) (j : Nat) : (m * 2 ^ j).log2 = m.log2 + j := by
  induction j with
  | zero => simp
  | succ j ih =>
      rw [Nat.pow_succ', Nat.mul_left_comm, Nat.log2_two_mul (by positivity), ih, Nat.add_assoc]

theorem shiftRight_eq (m j : Nat) :
    (⟨m * 2 ^ j, false, false⟩ : ExtendedMantissa) >>> j = ⟨m, false, false⟩ := by
  change Nat.repeat _ _ _ = _
  induction j generalizing m with
  | zero => simp [Nat.repeat]
  | succ j ih =>
      rw [Nat.repeat, Nat.pow_succ', ← Nat.mul_assoc, ih (m * 2)]
      simp [ExtendedMantissa.shiftRightOne]

theorem shiftToTargetExponent_eq {j : Nat} (h : Normal m (e + j)) :
    shiftToTargetExponent .binary64 (m * 2 ^ j) e .exact = (⟨m, false, false⟩, e + j) := by
  have htarget : Format.binary64.targetExponent (totalExponent (m * 2 ^ j) e) = e + j := by
    rw [totalExponent, log2_mul_two_pow h.pos.ne', h.log2_eq]
    change max (((52 + j : Nat) : Int) + 1 + e - (53 : Nat)) (-1074) = e + j
    have := h.lower
    omega
  have hshift : (e + (j : Int) - e).toNat = j := by omega
  rw [shiftToTargetExponent, htarget, shiftToExponent, hshift,
    ExtendedMantissa.ofMantissaAndAccuracy, shiftRight_eq]

/-- A normal number with zeros behind its significand is rounded to itself. -/
theorem roundWithAccuracy_eq (s : Sign) {j n : Nat} {d : Int} (h : Normal m e)
    (hn : n = m * 2 ^ j) (hd : d + j = e) :
    roundWithAccuracy .binary64 s n d .exact = .finite s m e h.pos := by
  subst hn hd
  -- after the first shift there are 53 bits, so that the second one is by nothing
  have hround : ExtendedMantissa.roundedMantissa ⟨m, false, false⟩ = m * 2 ^ 0 :=
    (Nat.mul_one m).symm
  have hagain : shiftToTargetExponent .binary64
      (ExtendedMantissa.roundedMantissa ⟨m, false, false⟩) (d + j) .exact =
        (⟨m, false, false⟩, d + j + (0 : Nat)) := by
    rw [hround]
    exact shiftToTargetExponent_eq (by simpa using h)
  rw [roundWithAccuracy, shiftToTargetExponent_eq h]
  dsimp only
  rw [hagain]
  exact (dif_neg h.pos.ne').trans (finite_congr rfl rfl (Int.add_zero _))

theorem mul_eq {a b j : Nat} {c d : Int} (ha : 0 < a) (hb : 0 < b) (h : Normal m e)
    (hab : a * b = m * 2 ^ j) (hcd : c + d + j = e) :
    UnpackedFloat.mul .binary64 (.finite .positive a c ha) (.finite .positive b d hb) =
      .finite .positive m e h.pos :=
  roundWithAccuracy_eq .positive h hab hcd

/-! ### Reading integers -/

/-- A small integer is shifted up to 53 bits; a larger exact one ends in zeros. -/
theorem exists_normal (h : Exact n) (hn : 0 < n) : ∃ (m : Nat) (e : Int), Normal m e ∧
    ((n < 2 ^ 53 ∧ ∃ j : Nat, m = n * 2 ^ j ∧ e = -j) ∨
      2 ^ 53 ≤ n ∧ ∃ j : Nat, n = m * 2 ^ j ∧ e = j) := by
  rcases Nat.lt_or_ge n (2 ^ 53) with hlt | hge
  · have hlog := (Nat.log2_lt hn.ne').mpr hlt
    refine ⟨n * 2 ^ (52 - n.log2), -(52 - n.log2 : Nat), ⟨?_, by omega, by omega⟩,
      Or.inl ⟨hlt, _, rfl, rfl⟩⟩
    rw [log2_mul_two_pow hn.ne']
    omega
  · obtain ⟨m₀, k, rfl, hm₀, hk⟩ := h
    have hlog := (Nat.le_log2 hn.ne').mpr hge
    have hm₀' : m₀ ≠ 0 := by
      rintro rfl
      omega
    have hlog₀ := (Nat.log2_lt hm₀').mpr hm₀
    rw [log2_mul_two_pow hm₀'] at hlog
    obtain ⟨j, rfl⟩ : ∃ j, k = 52 - m₀.log2 + j := Nat.exists_eq_add_of_le (by omega)
    refine ⟨m₀ * 2 ^ (52 - m₀.log2), j, ⟨?_, by omega, by omega⟩,
      Or.inr ⟨hge, j, by rw [Nat.pow_add, Nat.mul_assoc], rfl⟩⟩
    rw [log2_mul_two_pow hm₀']
    omega

theorem unpack_ofBits_one : (Float.ofBits 0x3FF0000000000000).toModel.unpack =
    .finite .positive (2 ^ 52) (-52) (by decide) := by
  rfl

theorem unpack_toFloat (hn : n < 2 ^ 64) :
    n.toUInt64.toFloat.toModel = .pack (UnpackedFloat.ofInt .binary64 n) := by
  change Float.Model.pack (UnpackedFloat.ofInt .binary64 n.toUInt64.toNat) = _
  rw [Nat.toUInt64_eq, UInt64.toNat_ofNat_of_lt' hn]

theorem ofInt_eq {j : Nat} (hn : 0 < n) (h : Normal (n * 2 ^ j) (-j)) :
    UnpackedFloat.ofInt .binary64 n = .finite .positive (n * 2 ^ j) (-j) h.pos := by
  have hlog := h.log2_eq
  rw [log2_mul_two_pow hn.ne'] at hlog
  have htarget : Format.binary64.targetExponent (totalExponent n 0) = -j := by
    rw [totalExponent]
    change max ((n.log2 : Int) + 1 + 0 - (53 : Nat)) (-1074) = -j
    omega
  have hshift : (0 - -(j : Int)).toNat = j := by omega
  have hpos : compare (n : Int) 0 = .gt := Int.compare_eq_gt.mpr (by omega)
  rw [UnpackedFloat.ofInt, UnpackedFloat.normalize, hpos]
  dsimp only
  rw [Int.toNat_natCast, UnpackedFloat.round, htarget, decreaseExponent, hshift]
  exact roundWithAccuracy_eq .positive h (by rw [Nat.shiftLeft_eq, Nat.pow_zero, Nat.mul_one])
    (show 0 - (j : Int) + (0 : Nat) = -j by omega)

theorem cast_mul_two_zpow (n j : Nat) : ((n * 2 ^ j : Nat) : Rat) * 2 ^ (-j : Int) = n := by
  rw [Nat.cast_mul, Nat.cast_pow, Nat.cast_ofNat, zpow_neg, zpow_natCast,
    mul_inv_cancel_right₀ (by positivity)]

/-- An exact integer is read as a normal number of the same value. -/
theorem unpack_ofScientific (h : Exact n) (hn : 0 < n) : ∃ (m : Nat) (e : Int) (hm : 0 < m),
    Normal m e ∧ (m : Rat) * 2 ^ e = n ∧
      (Float.ofScientific n false 0).toModel.unpack = .finite .positive m e hm := by
  obtain ⟨m, e, hnormal, ⟨hlt, j, rfl, rfl⟩ | ⟨hge, j, rfl, rfl⟩⟩ := exists_normal h hn
  · -- a small integer goes through a machine word, and is multiplied by one
    refine ⟨n * 2 ^ j, -j, hnormal.pos, hnormal, cast_mul_two_zpow n j, ?_⟩
    rw [Float.ofScientific, dif_pos ⟨hlt, by decide⟩]
    change (Float.Model.pack (UnpackedFloat.mul .binary64 n.toUInt64.toFloat.toModel.unpack
      (Float.ofBits 0x3FF0000000000000).toModel.unpack)).unpack = _
    rw [unpack_ofBits_one, unpack_toFloat (by omega), ofInt_eq hn hnormal, hnormal.unpack_pack,
      mul_eq _ _ hnormal rfl (show -(j : Int) + -52 + (52 : Nat) = -j by omega),
      hnormal.unpack_pack]
  · -- a larger one is shifted up by 53 bits, and rounded with the power of ten
    refine ⟨m, j, hnormal.pos, hnormal, by rw [zpow_natCast]; norm_cast, ?_⟩
    rw [Float.ofScientific, dif_neg (by omega)]
    change (Float.Model.pack (UnpackedFloat.ofScientific .binary64 (m * 2 ^ j) 0)).unpack = _
    rw [UnpackedFloat.ofScientific, dif_neg hn.ne', if_neg (by decide),
      if_neg (not_lt.mpr (neg_nonpos.mpr (by positivity))), if_pos (by decide)]
    have hdigits : (m * 2 ^ j) <<< Format.binary64.mantissaBits * 10 ^ (0 : Int).toNat =
        m * 2 ^ (j + 53) := by
      rw [Nat.shiftLeft_eq, Nat.mul_assoc, Nat.pow_add, Nat.mul_assoc]
      rfl
    have hexponent : -(Format.binary64.mantissaBits : Int) + 0 + (j + 53 : Nat) = j := by
      change -((53 : Nat) : Int) + 0 + (j + 53 : Nat) = j
      omega
    rw [mul_eq _ _ hnormal hdigits hexponent, hnormal.unpack_pack]

/-- Three binary digits are less than a decimal one. -/
theorem length_toDigits_le {k d : Nat} (hm : m < 2 ^ 53) (hd : 0 < d) (h : 53 + k ≤ 3 * d) :
    (Nat.toDigits 10 (m * 2 ^ k)).length ≤ d := by
  rw [Nat.length_toDigits_le_iff (by decide) hd]
  calc m * 2 ^ k < 2 ^ 53 * 2 ^ k := Nat.mul_lt_mul_of_pos_right hm (Nat.two_pow_pos k)
    _ = 2 ^ (53 + k) := (Nat.pow_add 2 53 k).symm
    _ ≤ 2 ^ (3 * d) := Nat.pow_le_pow_right Nat.two_pos h
    _ = (2 ^ 3) ^ d := Nat.pow_mul 2 3 d
    _ ≤ 10 ^ d := Nat.pow_le_pow_left (by decide) d

/-- An exact integer is not cut off as too large. -/
theorem scaled_eq (h : Exact n) (hn : 0 < n) (negative : Bool) :
    Literal.scaled negative n 0 =
      if negative then -Float.ofScientific n false 0 else Float.ofScientific n false 0 := by
  have hlength : (Nat.toDigits 10 n).length ≤ 400 := by
    obtain ⟨m, k, rfl, hm, hk⟩ := h
    exact length_toDigits_le hm (by decide) (by omega)
  have hsmall : ¬ (n = 0 ∨ ((Nat.toDigits 10 n).length : Int) + 0 < -400) := by omega
  have hlarge : ¬ 400 < ((Nat.toDigits 10 n).length : Int) + 0 := by omega
  simp only [Literal.scaled, if_neg hsmall, if_neg hlarge]
  rfl

/-- An exact integer is a float with its own value. -/
theorem denotation_scaled (h : Exact n) (negative : Bool) :
    Value.denotation (.float (Literal.scaled negative n 0)) =
      .number (Literal.signed negative n) := by
  rcases Nat.eq_zero_or_pos n with rfl | hn
  · cases negative <;> decide +kernel
  · obtain ⟨m, e, hm, hnormal, hvalue, hunpack⟩ := unpack_ofScientific h hn
    have hparts : parts (Literal.scaled negative n 0) = .finite negative m e := by
      rw [scaled_eq h hn, parts_eq]
      cases negative
      · exact congrArg partsOf hunpack
      · change partsOf (Float.Model.pack (Float.Model.unpack _).neg).unpack = _
        rw [hunpack]
        change partsOf (Float.Model.pack (.finite .negative m e hm)).unpack = _
        rw [hnormal.unpack_pack]
        rfl
    rw [Value.denotation, Value.denotationOfFloat, hparts]
    cases negative <;> simp [Parts.rat?, Literal.signed, hvalue]

/-- The integers that keep their value as floats are the exact ones. -/
theorem denotation_scaled_eq_iff {negative : Bool} :
    Value.denotation (.float (Literal.scaled negative n 0)) =
      .number (Literal.signed negative n) ↔ Exact n := by
  refine ⟨fun h => ?_, fun h => denotation_scaled h negative⟩
  have := exact_of_denotation h
  cases negative
  · simpa [Literal.signed] using this
  · simpa [Literal.signed] using this

end Binary64

end Conjunctive
