import Conjunctive.Proofs.Number.Exact

/-!
# Decimal literals are numbers

Of two numbers that are multiplied or divided the outcome is a number again if the second
is finite and not zero, and a number stays one when it is packed into bits. A decimal
literal is read by such steps. So it may be an infinity, but it is never a float that is
not a number.
-/

open Float.Model Float.Model.UnpackedFloat

namespace Conjunctive

namespace Binary64

/-- Whether an unpacked number is finite and not zero. -/
def isFinite : UnpackedFloat → Bool
  | .finite _ _ _ _ => true
  | _ => false

variable {u v : UnpackedFloat}

theorem isNaN_dite {p : Prop} [Decidable p] {a : p → UnpackedFloat} {b : ¬ p → UnpackedFloat}
    (ha : ∀ h, (a h).isNaN = false) (hb : ∀ h, (b h).isNaN = false) :
    (dite p a b).isNaN = false := by
  by_cases h : p
  · rw [dif_pos h, ha]
  · rw [dif_neg h, hb]

theorem isNaN_ite {p : Prop} [Decidable p] (hu : p → u.isNaN = false) (hv : ¬ p → v.isNaN = false) :
    (ite p u v).isNaN = false := by
  by_cases h : p
  · rw [if_pos h, hu h]
  · rw [if_neg h, hv h]

theorem isNaN_roundWithAccuracy (s : Sign) (m : Nat) (e : Int) (accuracy : Accuracy) :
    (roundWithAccuracy .binary64 s m e accuracy).isNaN = false := by
  rw [roundWithAccuracy]
  exact isNaN_dite (fun _ => rfl) fun _ => rfl

theorem isNaN_mul (hu : u.isNaN = false) (hv : isFinite v = true) :
    (UnpackedFloat.mul .binary64 u v).isNaN = false := by
  cases v with
  | finite =>
      cases u with
      | notANumber => exact hu
      | finite => exact isNaN_roundWithAccuracy ..
      | _ => rfl
  | _ => cases hv

theorem isNaN_div (hu : u.isNaN = false) (hv : isFinite v = true) :
    (UnpackedFloat.div .binary64 u v).isNaN = false := by
  cases v with
  | finite =>
      cases u with
      | notANumber => exact hu
      | finite => exact isNaN_roundWithAccuracy ..
      | _ => rfl
  | _ => cases hv

/-- Bits are those of no number only if all bits of the exponent are set. -/
theorem isNaN_unpack_packComponents {s : Sign} {b : BitVec 11} {c : BitVec 52}
    (h : b = -1#11 → c = 0#52) :
    (UnpackedFloat.unpack .binary64 (packComponents .binary64 s b c)).isNaN = false := by
  unfold UnpackedFloat.unpack
  refine isNaN_ite (fun hmax => isNaN_ite (fun _ => rfl) fun hempty => ?_) fun _ =>
    isNaN_ite (fun _ => isNaN_dite (fun _ => rfl) fun _ => rfl) fun _ => rfl
  rw [unpackExponent_packComponents] at hmax
  rw [unpackMantissa_packComponents] at hempty
  exact absurd (h hmax) hempty

theorem isNaN_unpack_pack (hu : u.isNaN = false) : (Float.Model.pack u).unpack.isNaN = false := by
  change (UnpackedFloat.unpack .binary64 (UnpackedFloat.pack .binary64 u)).isNaN = false
  cases u with
  | notANumber => cases hu
  | infinity s => exact isNaN_unpack_packComponents fun _ => rfl
  | zero s => exact isNaN_unpack_packComponents fun _ => rfl
  | finite s m e hm =>
      unfold UnpackedFloat.pack
      dsimp only
      split_ifs with hlarge
      · exact isNaN_unpack_packComponents fun _ => rfl
      · -- the exponent is below that of the infinities
        refine isNaN_unpack_packComponents fun hmax => ?_
        have hfield := congrArg BitVec.toNat hmax
        rw [BitVec.toNat_ofNat, Nat.mod_eq_of_lt (by omega)] at hfield
        exact absurd hfield (by change _ ≠ 2047; change ¬ 2048 ≤ _ at hlarge; omega)
      · exact isNaN_unpack_packComponents fun hmax => absurd hmax (by decide)

/-! ### Floats -/

/-- Whether a float is a number, as it is computed with. -/
def IsNumber (x : Float) : Prop := x.toModel.unpack.isNaN = false

theorem isNotANumber_eq (h : IsNumber x) (object : Nat) :
    (Value.float x object).isNotANumber = false := by
  rw [Value.isNotANumber, Value.denotation, Value.denotationOfFloat, parts_eq]
  unfold IsNumber at h
  cases hx : x.toModel.unpack with
  | notANumber =>
      rw [hx] at h
      cases h
  | _ => rfl

theorem isFinite_powerOfTen : ∀ e : Fin Float.exactlyRepresentablePowersOfTen.size,
    isFinite Float.exactlyRepresentablePowersOfTen[e].toModel.unpack = true := by
  decide +kernel

theorem isNumber_toFloat (n : UInt64) : IsNumber n.toFloat := by
  refine isNaN_unpack_pack (u := UnpackedFloat.ofInt .binary64 n.toNat) ?_
  rw [UnpackedFloat.ofInt, UnpackedFloat.normalize]
  split
  · exact isNaN_roundWithAccuracy ..
  · rfl
  · exact isNaN_roundWithAccuracy ..

theorem isNaN_ofScientific (m : Nat) (e : Int) :
    (UnpackedFloat.ofScientific .binary64 m e).isNaN = false := by
  rw [UnpackedFloat.ofScientific]
  refine isNaN_dite (fun _ => rfl) fun _ => isNaN_ite (fun _ => rfl) fun _ =>
    isNaN_ite (fun _ => rfl) fun _ => isNaN_ite (fun _ => ?_) fun _ => ?_
  · exact isNaN_mul rfl rfl
  · exact isNaN_div rfl rfl

theorem isNumber_ofScientific (m : Nat) (negative : Bool) (e : Nat) :
    IsNumber (Float.ofScientific m negative e) := by
  rw [Float.ofScientific]
  split_ifs with hsmall hnegative
  · have he : e < Float.exactlyRepresentablePowersOfTen.size := Nat.lt_succ_of_le hsmall.2
    exact isNaN_unpack_pack (isNaN_div (isNumber_toFloat _) (isFinite_powerOfTen ⟨e, he⟩))
  · have he : e < Float.exactlyRepresentablePowersOfTen.size := Nat.lt_succ_of_le hsmall.2
    exact isNaN_unpack_pack (isNaN_mul (isNumber_toFloat _) (isFinite_powerOfTen ⟨e, he⟩))
  · exact isNaN_unpack_pack (isNaN_ofScientific m _)
  · exact isNaN_unpack_pack (isNaN_ofScientific m _)

theorem isNumber_neg {x : Float} (h : IsNumber x) : IsNumber (-x) := by
  refine isNaN_unpack_pack ?_
  unfold IsNumber at h
  cases hx : x.toModel.unpack with
  | notANumber =>
      rw [hx] at h
      cases h
  | _ => rfl

theorem isNumber_zero : IsNumber 0 := by
  unfold IsNumber
  decide +kernel

theorem isNumber_scaled (negative : Bool) (significand : Nat) (exponent : Int) :
    IsNumber (Literal.scaled negative significand exponent) := by
  have hinfinity : IsNumber (1.0 / 0.0) := by
    unfold IsNumber
    decide +kernel
  rw [Literal.scaled]
  split_ifs
  · exact isNumber_neg isNumber_zero
  · exact isNumber_neg hinfinity
  · exact isNumber_neg (isNumber_ofScientific _ _ _)
  · exact isNumber_zero
  · exact hinfinity
  · exact isNumber_ofScientific _ _ _

/-- What a literal is read as is a number. -/
theorem isNumber_of_float? {cs : List Char} {x : Float} (h : Literal.float? cs = some x) :
    IsNumber x := by
  rw [Literal.float?] at h
  simp only [Option.bind_eq_bind, Option.bind_eq_some_iff, Option.pure_def,
    Option.some.injEq] at h
  obtain ⟨p, -, e, -, rfl⟩ := h
  exact isNumber_scaled _ _ _

end Binary64

end Conjunctive
