import Conjunctive.Number.FloatText
import Mathlib.Tactic.SplitIfs

/-!
# What numbers are written with

The text of an integer consists of digits, perhaps behind a minus sign. The text
of a float has some other character, a point, an exponent or a word, so that no
float is written like an integer. Neither has a character that a table sets
between quotation marks.
-/

namespace Conjunctive

/-- Whether a character may stand in the text of an integer. -/
def isIntegerSign (c : Char) : Bool := c.isDigit || c == '-'

/-- Whether a character may stand in the text of a number. -/
def isNumberSign (c : Char) : Bool :=
  c.isDigit || ['-', '+', '.', 'e', 'i', 'n', 'f', 'a'].contains c

theorem isNumberSign_of_isIntegerSign {c : Char} (h : isIntegerSign c = true) :
    isNumberSign c = true := by
  rw [isIntegerSign, Bool.or_eq_true, beq_iff_eq] at h
  rcases h with h | rfl
  · rw [isNumberSign, h, Bool.true_or]
  · decide

theorem isNumberSign_of_isDigit {c : Char} (h : c.isDigit = true) : isNumberSign c = true := by
  rw [isNumberSign, h, Bool.true_or]

theorem isDigit_of_mem_toString {n : Nat} {c : Char} (h : c ∈ (toString n).toList) :
    c.isDigit = true := by
  rw [Nat.toString_eq_ofList_toDigits, String.toList_ofList] at h
  exact Nat.isDigit_of_mem_toDigits (by decide) (by decide) h

theorem isIntegerSign_of_mem_toString {n : Int} {c : Char} (h : c ∈ (toString n).toList) :
    isIntegerSign c = true := by
  rw [isIntegerSign, Bool.or_eq_true, beq_iff_eq]
  cases n with
  | ofNat m => exact Or.inl (isDigit_of_mem_toString h)
  | negSucc m =>
      change c ∈ ("-" ++ toString (m + 1)).toList at h
      rw [String.toList_append, List.mem_append] at h
      rcases h with h | h
      · exact Or.inr (List.mem_singleton.mp h)
      · exact Or.inl (isDigit_of_mem_toString h)

/-- A text with only characters of numbers. -/
def IsNumeral (s : String) : Prop := ∀ c ∈ s.toList, isNumberSign c = true

theorem isNumeral_of_all {s : String} (h : s.toList.all isNumberSign = true) : IsNumeral s :=
  List.all_eq_true.mp h

theorem IsNumeral.append {s t : String} (hs : IsNumeral s) (ht : IsNumeral t) :
    IsNumeral (s ++ t) := by
  intro c hc
  rw [String.toList_append, List.mem_append] at hc
  exact hc.elim (hs c) (ht c)

theorem isNumeral_ofList {cs : List Char} (h : ∀ c ∈ cs, c.isDigit = true) :
    IsNumeral (String.ofList cs) := by
  intro c hc
  rw [String.toList_ofList] at hc
  exact isNumberSign_of_isDigit (h c hc)

theorem isNumeral_toString (n : Int) : IsNumeral (toString n) := fun _ hc =>
  isNumberSign_of_isIntegerSign (isIntegerSign_of_mem_toString hc)

/-- A text with only characters of numbers, but not only those of integers. -/
structure IsFloatNumeral (s : String) : Prop where
  isNumeral : IsNumeral s
  exists_not_isIntegerSign : ∃ c ∈ s.toList, isIntegerSign c = false

theorem isFloatNumeral_of_any {s : String} (h : s.toList.all isNumberSign = true)
    (hother : (s.toList.any fun c => !isIntegerSign c) = true) : IsFloatNumeral s := by
  obtain ⟨c, hc, hother⟩ := List.any_eq_true.mp hother
  exact ⟨isNumeral_of_all h, c, hc, Bool.not_eq_true' _ ▸ hother⟩

theorem IsFloatNumeral.append_left {s t : String} (ht : IsFloatNumeral t) (hs : IsNumeral s) :
    IsFloatNumeral (s ++ t) := by
  obtain ⟨c, hc, hother⟩ := ht.exists_not_isIntegerSign
  refine ⟨hs.append ht.isNumeral, c, ?_, hother⟩
  rw [String.toList_append]
  exact List.mem_append_right _ hc

theorem IsFloatNumeral.append_right {s t : String} (hs : IsFloatNumeral s) (ht : IsNumeral t) :
    IsFloatNumeral (s ++ t) := by
  obtain ⟨c, hc, hother⟩ := hs.exists_not_isIntegerSign
  refine ⟨hs.isNumeral.append ht, c, ?_, hother⟩
  rw [String.toList_append]
  exact List.mem_append_left _ hc

theorem IsFloatNumeral.ne_toString {s : String} (h : IsFloatNumeral s) (n : Int) :
    s ≠ toString n := by
  rintro rfl
  obtain ⟨c, hc, hother⟩ := h.exists_not_isIntegerSign
  rw [isIntegerSign_of_mem_toString hc] at hother
  cases hother

namespace FloatStyle

variable {digits : List Char}

theorem isFloatNumeral_positional (h : ∀ c ∈ digits, c.isDigit = true) (leading : Int) :
    IsFloatNumeral (positional digits leading) := by
  have hdigits := isNumeral_ofList h
  have hzeros : ∀ n, IsNumeral (String.ofList (List.replicate n '0')) := by
    intro n
    apply isNumeral_ofList
    intro c hc
    rw [List.eq_of_mem_replicate hc]
    rfl
  unfold positional
  dsimp only
  split_ifs
  · have hpoint : IsFloatNumeral "0." := isFloatNumeral_of_any (by decide) (by decide)
    rw [String.ofList_append, ← String.append_assoc]
    exact (hpoint.append_right (hzeros _)).append_right hdigits
  · have hpoint : IsFloatNumeral ".0" := isFloatNumeral_of_any (by decide) (by decide)
    rw [String.ofList_append]
    exact hpoint.append_left (hdigits.append (hzeros _))
  · have hpoint : IsFloatNumeral "." := isFloatNumeral_of_any (by decide) (by decide)
    refine (hpoint.append_left (isNumeral_ofList fun c hc => ?_)).append_right
      (isNumeral_ofList fun c hc => ?_)
    · exact h c (List.mem_of_mem_take hc)
    · exact h c (List.mem_of_mem_drop hc)

theorem isNumeral_exponentText (e : Int) : IsNumeral (exponentText e) := by
  have hdigits : IsNumeral (toString e.natAbs) := fun c hc =>
    isNumberSign_of_isDigit (isDigit_of_mem_toString hc)
  have hsign : IsNumeral (if e < 0 then "-" else "+") := by
    split_ifs <;> exact isNumeral_of_all (by decide)
  have hzero : IsNumeral "0" := isNumeral_of_all (by decide)
  unfold exponentText
  refine hsign.append ?_
  split_ifs
  · exact hzero.append hdigits
  · exact hdigits

theorem isFloatNumeral_scientific (h : ∀ c ∈ digits, c.isDigit = true) (leading : Int) :
    IsFloatNumeral (cell.scientific digits leading) := by
  have hexponent : IsFloatNumeral "e" := isFloatNumeral_of_any (by decide) (by decide)
  have hempty : IsNumeral "" := isNumeral_of_all (by decide)
  have hpoint : IsNumeral "." := isNumeral_of_all (by decide)
  unfold scientific
  refine (hexponent.append_left ?_).append_right (isNumeral_exponentText leading)
  split
  · exact hempty
  · exact (isNumeral_ofList h).append hempty
  · rename_i d ds _
    refine ((isNumeral_ofList fun c hc => ?_).append hpoint).append
      (isNumeral_ofList fun c hc => h c (List.mem_cons_of_mem d hc))
    rw [List.mem_singleton.mp hc]
    exact h d (List.mem_cons_self ..)

/-- No float is written like an integer. -/
theorem isFloatNumeral_write (x : Float) : IsFloatNumeral (cell.write x) := by
  have hsign : ∀ negative : Bool, IsNumeral (if negative then "-" else "") := by
    intro negative
    cases negative <;> exact isNumeral_of_all (by decide)
  have hdigits : ∀ n, ∀ c ∈ Nat.toDigits 10 n, c.isDigit = true := fun n c hc =>
    Nat.isDigit_of_mem_toDigits (by decide) (by decide) hc
  unfold write
  split
  · exact isFloatNumeral_of_any (by decide) (by decide)
  · exact IsFloatNumeral.append_left (isFloatNumeral_of_any (by decide) (by decide)) (hsign _)
  · refine IsFloatNumeral.append_left ?_ (hsign _)
    unfold magnitude
    dsimp only
    split_ifs
    · exact isFloatNumeral_positional (hdigits _) _
    · exact isFloatNumeral_scientific (hdigits _) _

end FloatStyle

end Conjunctive
