import Conjunctive.Proofs.Lists
import Conjunctive.Text.Line
import Mathlib.Data.List.DropRight

/-!
# Stripping and lines

A stripped text is the text without blanks at its two ends, so it loses nothing that
is not blank. No line of a text holds a line boundary, and the lines of two texts with
a newline between them are those of the one and those of the other, except that there
may be an empty line between them.
-/

namespace Conjunctive

namespace Text

/-- The characters of a text that are not blank. -/
def unblanked (cs : List Char) : List Char := cs.filter fun c => !isBlank c

@[simp] theorem unblanked_nil : unblanked [] = [] := rfl

@[simp] theorem unblanked_append (cs ds : List Char) :
    unblanked (cs ++ ds) = unblanked cs ++ unblanked ds := List.filter_append cs ds

theorem unblanked_eq_nil_iff {cs : List Char} :
    unblanked cs = [] ↔ ∀ c ∈ cs, isBlank c = true := by
  simp only [unblanked, List.filter_eq_nil_iff, Bool.not_eq_true', Bool.not_eq_false]

/-! ### Stripping -/

/-- Only blanks stand on the two sides of a stripped text. -/
theorem exists_blanks_strip (cs : List Char) : ∃ l r, cs = l ++ strip cs ++ r ∧
    (∀ c ∈ l, isBlank c = true) ∧ ∀ c ∈ r, isBlank c = true := by
  refine ⟨cs.takeWhile isBlank, (cs.dropWhile isBlank).rtakeWhile isBlank, ?_,
    fun c hc => List.mem_takeWhile_imp hc, fun c hc => List.mem_rtakeWhile_imp hc⟩
  change cs = _ ++ (cs.dropWhile isBlank).rdropWhile isBlank ++ _
  rw [List.append_assoc, List.rdropWhile_append_rtakeWhile, List.takeWhile_append_dropWhile]

theorem unblanked_strip (cs : List Char) : unblanked (strip cs) = unblanked cs := by
  obtain ⟨l, r, hcs, hl, hr⟩ := exists_blanks_strip cs
  conv_rhs => rw [hcs, unblanked_append, unblanked_append, unblanked_eq_nil_iff.mpr hl,
    unblanked_eq_nil_iff.mpr hr, List.nil_append, List.append_nil]

theorem mem_of_mem_strip {cs : List Char} {c : Char} (h : c ∈ strip cs) : c ∈ cs := by
  obtain ⟨l, r, hcs, -, -⟩ := exists_blanks_strip cs
  rw [hcs]
  exact List.mem_append_left _ (List.mem_append_right _ h)

theorem isBlank_of_mem_head?_strip {cs : List Char} {c : Char} (h : c ∈ (strip cs).head?) :
    isBlank c = false := by
  obtain ⟨ds, hds⟩ := List.head?_eq_some_iff.mp h
  obtain ⟨r, hr⟩ : strip cs <+: cs.dropWhile isBlank := List.rdropWhile_prefix isBlank _
  refine eq_false_of_mem_head?_dropWhile (l := cs) ?_
  rw [← hr, hds]
  rfl

theorem isBlank_of_mem_getLast?_strip {cs : List Char} {c : Char}
    (h : c ∈ (strip cs).getLast?) : isBlank c = false := by
  rw [strip, List.getLast?_reverse] at h
  exact eq_false_of_mem_head?_dropWhile h

theorem strip_concat (cs : List Char) {c : Char} (h : isBlank c = false) :
    strip (cs ++ [c]) = cs.dropWhile isBlank ++ [c] := by
  have hdrop : (cs ++ [c]).dropWhile isBlank = cs.dropWhile isBlank ++ [c] := by
    rw [List.dropWhile_append]
    split_ifs with hnil
    · rw [List.isEmpty_iff.mp hnil, List.dropWhile_cons_of_neg (by simp [h]), List.nil_append]
    · rfl
  change ((cs ++ [c]).dropWhile isBlank).rdropWhile isBlank = _
  rw [hdrop, List.rdropWhile_concat_neg _ _ _ (by simp [h])]

theorem strip_eq_nil_iff {cs : List Char} : strip cs = [] ↔ unblanked cs = [] := by
  constructor
  · intro h
    rw [← unblanked_strip, h, unblanked_nil]
  · intro h
    rw [strip, List.dropWhile_eq_nil_iff.mpr (unblanked_eq_nil_iff.mp h)]
    rfl

/-! ### Lines -/

theorem lines_of_not_isBoundary {c : Char} (h : isBoundary c = false) (cs : List Char) :
    lines (c :: cs) = (c :: (lines cs).headD []) :: (lines cs).tail := by
  rw [lines]
  · rw [if_neg (by rw [h]; exact Bool.false_ne_true)]
    cases lines cs <;> rfl
  · rintro ds rfl
    cases h

/-- A boundary ends an empty line, if the next character does not belong to it. -/
theorem lines_of_isBoundary {c : Char} (h : isBoundary c = true) {cs : List Char}
    (hpair : ∀ ds, c = '\r' → cs ≠ '\n' :: ds) : lines (c :: cs) = [] :: lines cs := by
  rw [lines, if_pos h]
  rintro ds rfl rfl
  exact hpair ds rfl rfl

theorem isBoundary_of_mem_lines {cs : List Char} :
    ∀ line ∈ lines cs, ∀ c ∈ line, isBoundary c = false := by
  induction cs using lines.induct with
  | case1 => exact fun line h => absurd h List.not_mem_nil
  | case2 cs ih =>
      rw [lines, List.forall_mem_cons]
      exact ⟨fun c hc => absurd hc List.not_mem_nil, ih⟩
  | case3 c cs hpair h ih =>
      rw [lines_of_isBoundary h fun ds hc hcs => hpair ds hc hcs, List.forall_mem_cons]
      exact ⟨fun c hc => absurd hc List.not_mem_nil, ih⟩
  | case4 c cs _ h hlines _ =>
      rw [lines_of_not_isBoundary (Bool.eq_false_iff.mpr h), hlines]
      simpa using h
  | case5 c cs _ h line lines hlines ih =>
      rw [lines_of_not_isBoundary (Bool.eq_false_iff.mpr h), hlines]
      rw [hlines, List.forall_mem_cons] at ih
      rw [List.headD_cons, List.tail_cons, List.forall_mem_cons, List.forall_mem_cons]
      exact ⟨⟨Bool.eq_false_iff.mpr h, ih.1⟩, ih.2⟩

theorem eq_nil_of_lines_eq_nil {cs : List Char} (h : lines cs = []) : cs = [] := by
  cases cs using lines.fun_cases with
  | case1 => rfl
  | case2 cs =>
      rw [lines] at h
      exact absurd h (List.cons_ne_nil _ _)
  | case3 c cs hpair hc =>
      rw [lines_of_isBoundary hc fun ds hc hcs => hpair ds hc hcs] at h
      exact absurd h (List.cons_ne_nil _ _)
  | case4 c cs _ hc _ =>
      rw [lines_of_not_isBoundary (Bool.eq_false_iff.mpr hc)] at h
      exact absurd h (List.cons_ne_nil _ _)
  | case5 c cs _ hc _ _ _ =>
      rw [lines_of_not_isBoundary (Bool.eq_false_iff.mpr hc)] at h
      exact absurd h (List.cons_ne_nil _ _)

theorem lines_newline (cs : List Char) : lines ('\n' :: cs) = [] :: lines cs :=
  lines_of_isBoundary rfl fun _ h => absurd h (by decide)

/-- The lines of two texts with a newline between them. That newline may also end an
empty line, if a boundary ends the first text. -/
theorem lines_append_newline (cs ds : List Char) :
    lines (cs ++ '\n' :: ds) = lines cs ++ lines ds ∨
      lines (cs ++ '\n' :: ds) = lines cs ++ [] :: lines ds := by
  induction cs using lines.induct with
  | case1 => exact Or.inr (lines_newline ds)
  | case2 cs ih =>
      rw [List.cons_append, List.cons_append, lines, lines]
      exact ih.imp (congrArg _) (congrArg _)
  | case3 c cs hpair h ih =>
      rw [lines_of_isBoundary h fun ds hc hcs => hpair ds hc hcs, List.cons_append]
      by_cases hreturn : c = '\r' ∧ cs = []
      · obtain ⟨rfl, rfl⟩ := hreturn
        exact Or.inl rfl
      · rw [lines_of_isBoundary h]
        · exact ih.imp (congrArg _) (congrArg _)
        · rintro es rfl hes
          cases cs with
          | nil => exact hreturn ⟨rfl, rfl⟩
          | cons d cs =>
              obtain ⟨rfl, -⟩ := List.cons.inj hes
              exact hpair cs rfl rfl
  | case4 c cs _ h hlines _ =>
      obtain rfl := eq_nil_of_lines_eq_nil hlines
      left
      rw [List.singleton_append, lines_of_not_isBoundary (Bool.eq_false_iff.mpr h),
        lines_of_not_isBoundary (Bool.eq_false_iff.mpr h), lines_newline]
      rfl
  | case5 c cs _ h line rest hlines ih =>
      rw [List.cons_append, lines_of_not_isBoundary (Bool.eq_false_iff.mpr h),
        lines_of_not_isBoundary (Bool.eq_false_iff.mpr h)]
      rw [hlines] at ih ⊢
      refine ih.imp (fun heq => ?_) fun heq => ?_ <;> rw [heq] <;> rfl

end Text

end Conjunctive
