import Conjunctive.Proofs.Query.Spelling

/-!
# Texts laid out as tokens

A text is laid out as tokens, white space and comments (`Segment`). Each token
is the longest of its kind where it stands, and a comment runs to the end of its
line. Cutting a text into tokens finds just these layouts: a layout is cut into
its tokens (`scan_textOf`), and a text that is cut to the end has one
(`exists_layout`). So the tokens of a text do not depend on the layout. A text that is
not cut to the end is laid out up to each of its tokens (`exists_layoutBefore`).
-/

namespace Conjunctive

/-- A piece of a text: a token, a white space character, or a comment. -/
inductive Segment where
  | token (t : Token)
  | space (c : Char)
  | comment (sign : Char) (body : List Char)

namespace Segment

def text : Segment → List Char
  | token t => t.spelling
  | space c => [c]
  | comment sign body => sign :: body

def token? : Segment → Option Token
  | token t => some t
  | _ => none

/-- Whether a segment may stand before a text: a token is as long as can be, and a
comment ends where the line ends. -/
def FitsBefore (rest : List Char) : Segment → Prop
  | token t => t.Longest rest
  | space c => Token.isSpace c = true
  | comment sign body =>
    Token.isCommentSign sign = true ∧ '\n' ∉ body ∧ (rest = [] ∨ rest.head? = some '\n')

/-- The text that segments make up. -/
def textOf (segs : List Segment) : List Char := segs.flatMap text

/-- The tokens among segments. -/
def tokensOf (segs : List Segment) : List Token := segs.filterMap token?

@[simp] theorem textOf_nil : textOf [] = [] := rfl

@[simp] theorem textOf_cons (s : Segment) (segs : List Segment) :
    textOf (s :: segs) = s.text ++ textOf segs := rfl

@[simp] theorem textOf_append (segs segs' : List Segment) :
    textOf (segs ++ segs') = textOf segs ++ textOf segs' := List.flatMap_append

@[simp] theorem tokensOf_nil : tokensOf [] = [] := rfl

@[simp] theorem tokensOf_token (t : Token) (segs : List Segment) :
    tokensOf (token t :: segs) = t :: tokensOf segs := rfl

@[simp] theorem tokensOf_space (c : Char) (segs : List Segment) :
    tokensOf (space c :: segs) = tokensOf segs := rfl

@[simp] theorem tokensOf_comment (sign : Char) (body : List Char) (segs : List Segment) :
    tokensOf (comment sign body :: segs) = tokensOf segs := rfl

@[simp] theorem tokensOf_append (segs segs' : List Segment) :
    tokensOf (segs ++ segs') = tokensOf segs ++ tokensOf segs' := List.filterMap_append

/-- Whether each of some segments may stand before the text of those after it. -/
def LaidOut : List Segment → Prop
  | [] => True
  | s :: segs => s.FitsBefore (textOf segs) ∧ LaidOut segs

/-- Whether each of some segments may stand before the text of those after it and the
rest of the text. -/
def LaidOutBefore (rest : List Char) : List Segment → Prop
  | [] => True
  | s :: segs => s.FitsBefore (textOf segs ++ rest) ∧ LaidOutBefore rest segs

theorem laidOutBefore_nil {segs : List Segment} : LaidOutBefore [] segs ↔ LaidOut segs := by
  induction segs with
  | nil => exact Iff.rfl
  | cons s segs ih => rw [LaidOutBefore, LaidOut, List.append_nil, ih]

theorem LaidOutBefore.fits_of_mem {rest : List Char} {segs : List Segment}
    (h : LaidOutBefore rest segs) {t : Token} (ht : t ∈ tokensOf segs) : t.Fits := by
  induction segs with
  | nil => cases ht
  | cons s segs ih =>
      cases s with
      | token u =>
          rcases List.mem_cons.mp ht with rfl | ht
          · exact h.1.fits
          · exact ih h.2 ht
      | space c => exact ih h.2 ht
      | comment sign body => exact ih h.2 ht

instance (rest : List Char) (s : Segment) : Decidable (s.FitsBefore rest) := by
  cases s <;> unfold FitsBefore <;> infer_instance

instance decidableLaidOut : (segs : List Segment) → Decidable (LaidOut segs)
  | [] => inferInstanceAs (Decidable True)
  | s :: segs =>
    have := decidableLaidOut segs
    inferInstanceAs (Decidable (s.FitsBefore (textOf segs) ∧ LaidOut segs))

end Segment

namespace Token

open Segment

/-! ### Cutting a text -/

theorem scan_of_none {cs : List Char} (h : next? (skip cs) = none) : scan cs = ⟨[], skip cs⟩ := by
  rw [scan]
  split
  next => rfl
  next heq =>
    rw [h] at heq
    cases heq

theorem scan_of_some {cs : List Char} {t : Token} {rest : List Char}
    (h : next? (skip cs) = some (t, rest)) :
    scan cs = ⟨(t, (skip cs).length) :: (scan rest).tokens, (scan rest).stop⟩ := by
  rw [scan]
  split
  next heq =>
    rw [h] at heq
    cases heq
  next heq =>
    rw [h] at heq
    cases heq
    rfl

/-- The tokens of a text as far as they are found in a number of steps. -/
def scanWithin : Nat → List Char → Scanned
  | 0, cs => ⟨[], cs⟩
  | n + 1, cs =>
    match next? (skip cs) with
    | none => ⟨[], skip cs⟩
    | some (t, rest) =>
      let s := scanWithin n rest
      ⟨(t, (skip cs).length) :: s.tokens, s.stop⟩

theorem scanWithin_eq_scan {n : Nat} {cs : List Char} (h : cs.length < n) :
    scanWithin n cs = scan cs := by
  induction n generalizing cs with
  | zero => cases h
  | succ n ih =>
      rw [scanWithin]
      cases hnext : next? (skip cs) with
      | none => rw [scan_of_none hnext]
      | some s =>
          have hskip : (skip cs).length ≤ cs.length := length_skipFrom_le false cs
          have hrest : s.2.length < n := by
            have := length_next_lt hnext
            omega
          rw [scan_of_some hnext, ← ih hrest]

/-- A text has no more tokens than characters. -/
theorem scan_eq_scanWithin (cs : List Char) : scan cs = scanWithin (cs.length + 1) cs :=
  (scanWithin_eq_scan (Nat.lt_succ_self _)).symm

/-- If a text is cut into no tokens, no token is at its start. -/
theorem next?_eq_none_of_scan_eq {cs stop : List Char} (h : scan cs = ⟨[], stop⟩) :
    next? (skip cs) = none ∧ stop = skip cs := by
  cases hnext : next? (skip cs) with
  | none =>
      rw [scan_of_none hnext] at h
      cases h
      exact ⟨rfl, rfl⟩
  | some s =>
      rw [scan_of_some hnext] at h
      cases h

/-- The first of the tokens that a text is cut into is at its start. -/
theorem exists_of_scan_eq_cons {cs stop : List Char} {t : Token × Nat} {ts : List (Token × Nat)}
    (h : scan cs = ⟨t :: ts, stop⟩) : ∃ rest, next? (skip cs) = some (t.1, rest) ∧
      t.2 = (skip cs).length ∧ scan rest = ⟨ts, stop⟩ := by
  cases hnext : next? (skip cs) with
  | none =>
      rw [scan_of_none hnext] at h
      cases h
  | some s =>
      rw [scan_of_some hnext] at h
      cases h
      exact ⟨s.2, rfl, rfl, rfl⟩

/-- Ignored text in front makes no difference. -/
theorem scan_eq_of_skip_eq {cs ds : List Char} (h : skip cs = skip ds) : scan cs = scan ds := by
  cases hnext : next? (skip cs) with
  | none => rw [scan_of_none hnext, scan_of_none (h ▸ hnext), h]
  | some s =>
      have hds : scan ds = _ := scan_of_some (h ▸ hnext)
      rw [scan_of_some hnext, hds, h]

theorem isSpace_eq_false_of_isCommentSign {c : Char} (h : isCommentSign c = true) :
    isSpace c = false := by
  rw [isCommentSign, Bool.or_eq_true, beq_iff_eq, beq_iff_eq] at h
  rcases h with rfl | rfl <;> rfl

theorem skip_comment {sign : Char} (hsign : isCommentSign sign = true) {body rest : List Char}
    (hbody : '\n' ∉ body) (hrest : rest = [] ∨ rest.head? = some '\n') :
    skip (sign :: body ++ rest) = skip rest := by
  have hspace := Bool.eq_false_iff.mp (isSpace_eq_false_of_isCommentSign hsign)
  rw [List.cons_append, skip, skipFrom, if_neg Bool.false_ne_true, if_neg hspace, if_pos hsign]
  induction body with
  | nil =>
      rcases hrest with rfl | hrest
      · rfl
      · obtain ⟨cs, rfl⟩ := List.head?_eq_some_iff.mp hrest
        rfl
  | cons c body ih =>
      have hc : (c != '\n') = true := by
        rw [bne_iff_ne]
        rintro rfl
        exact hbody (by simp)
      rw [List.cons_append, skipFrom, if_pos rfl, hc]
      exact ih fun hmem => hbody (List.mem_cons_of_mem c hmem)

/-- A class of characters that has no white space and no comment sign. -/
theorem not_ignored {p : Char → Bool}
    (hp : [' ', '\t', '\x0c', '\r', '\n', '%', '#'].all (!p ·) = true) {c : Char}
    (hc : p c = true) : isSpace c = false ∧ isCommentSign c = false := by
  have hne : ∀ d ∈ [' ', '\t', '\x0c', '\r', '\n', '%', '#'], c ≠ d := by
    rintro d hd rfl
    have hnot := List.all_eq_true.mp hp c hd
    rw [hc] at hnot
    cases hnot
  simp only [List.forall_mem_cons] at hne
  simp [isSpace, isCommentSign, hne]

/-- No token begins like ignored text. -/
theorem Fits.exists_cons {t : Token} (h : t.Fits) :
    ∃ c cs, t.spelling = c :: cs ∧ isSpace c = false ∧ isCommentSign c = false := by
  cases t with
  | relation name =>
      obtain ⟨c, cs, rfl, hc, -⟩ := h
      exact ⟨c, cs, rfl, not_ignored (by decide) hc⟩
  | «variable» name =>
      obtain ⟨letters, digits, rfl, hne, hletters, -⟩ := h
      obtain ⟨c, cs, rfl⟩ := List.exists_cons_of_ne_nil hne
      exact ⟨c, cs ++ digits, rfl, not_ignored (by decide) (hletters c (by simp))⟩
  | number digits =>
      rcases h with hdecimal | ⟨ds, rfl, -⟩
      · obtain ⟨d, ds, rfl, hd⟩ := hdecimal.exists_cons
        exact ⟨d, ds, rfl, not_ignored (by decide) hd⟩
      · exact ⟨'-', ds, rfl, by decide⟩
  | string quote body =>
      refine ⟨quote, body ++ [quote], rfl, ?_⟩
      rcases h.1 with rfl | rfl <;> decide
  | arrow => exact ⟨':', ['-'], rfl, by decide⟩
  | dot => exact ⟨'.', [], rfl, by decide⟩
  | comma => exact ⟨',', [], rfl, by decide⟩
  | opening => exact ⟨'(', [], rfl, by decide⟩
  | closing => exact ⟨')', [], rfl, by decide⟩

theorem Fits.skip_append {t : Token} (h : t.Fits) (rest : List Char) :
    skip (t.spelling ++ rest) = t.spelling ++ rest := by
  obtain ⟨c, cs, heq, hspace, hsign⟩ := h.exists_cons
  rw [heq, List.cons_append, skip, skipFrom]
  simp [hspace, hsign]

/-- A layout is cut into its tokens, and nothing is left. -/
theorem scan_textOf {segs : List Segment} (h : LaidOut segs) :
    (scan (textOf segs)).tokens.map Prod.fst = tokensOf segs ∧ (scan (textOf segs)).stop = [] := by
  induction segs with
  | nil =>
      rw [textOf_nil, scan_of_none rfl]
      exact ⟨rfl, rfl⟩
  | cons s segs ih =>
      obtain ⟨hs, hsegs⟩ := h
      obtain ⟨htokens, hstop⟩ := ih hsegs
      rw [textOf_cons]
      cases s with
      | token t =>
          have hnext : next? (skip (t.spelling ++ textOf segs)) = some (t, textOf segs) := by
            rw [hs.fits.skip_append]
            exact next?_eq_some_iff.mpr ⟨rfl, hs⟩
          change (scan (t.spelling ++ textOf segs)).tokens.map Prod.fst = t :: tokensOf segs ∧
            (scan (t.spelling ++ textOf segs)).stop = []
          rw [scan_of_some hnext, List.map_cons, htokens]
          exact ⟨rfl, hstop⟩
      | space c =>
          have hskip : skip (c :: textOf segs) = skip (textOf segs) := by
            have hc : isSpace c = true := hs
            rw [skip, skipFrom, if_neg Bool.false_ne_true, if_pos hc, skip]
          change (scan (c :: textOf segs)).tokens.map Prod.fst = tokensOf segs ∧
            (scan (c :: textOf segs)).stop = []
          rw [scan_eq_of_skip_eq hskip]
          exact ⟨htokens, hstop⟩
      | comment sign body =>
          obtain ⟨hsign, hbody, hrest⟩ := hs
          change (scan (sign :: body ++ textOf segs)).tokens.map Prod.fst = tokensOf segs ∧
            (scan (sign :: body ++ textOf segs)).stop = []
          rw [scan_eq_of_skip_eq (skip_comment hsign hbody hrest)]
          exact ⟨htokens, hstop⟩

/-! ### What a text is cut into has a layout -/

/-- Ignored text may be put in front of a layout. From inside a comment, the rest of
the comment comes first. -/
theorem exists_layout_of_skipFrom {segs : List Segment} {rest : List Char}
    (h : LaidOutBefore rest segs) {cs : List Char} :
    (skipFrom false cs = textOf segs ++ rest →
      ∃ segs', LaidOutBefore rest segs' ∧ textOf segs' ++ rest = cs ∧
        tokensOf segs' = tokensOf segs) ∧
    (skipFrom true cs = textOf segs ++ rest →
      ∃ body segs', '\n' ∉ body ∧ LaidOutBefore rest segs' ∧ body ++ (textOf segs' ++ rest) = cs ∧
        (textOf segs' ++ rest = [] ∨ (textOf segs' ++ rest).head? = some '\n') ∧
        tokensOf segs' = tokensOf segs) := by
  induction cs with
  | nil =>
      constructor
      · intro hskip
        exact ⟨segs, h, hskip.symm, rfl⟩
      · intro hskip
        exact ⟨[], segs, List.not_mem_nil, h, hskip.symm, Or.inl hskip.symm, rfl⟩
  | cons c cs ih =>
      obtain ⟨hplain, hcomment⟩ := ih
      have hspaced : isSpace c = true → skipFrom false cs = textOf segs ++ rest →
          ∃ segs', LaidOutBefore rest segs' ∧ textOf segs' ++ rest = c :: cs ∧
            tokensOf segs' = tokensOf segs := by
        intro hc hskip
        obtain ⟨segs', hsegs', rfl, htokens⟩ := hplain hskip
        exact ⟨.space c :: segs', ⟨hc, hsegs'⟩, rfl, htokens⟩
      constructor
      · intro hskip
        rw [skipFrom, if_neg Bool.false_ne_true] at hskip
        split_ifs at hskip with hspace hsign
        · exact hspaced hspace hskip
        · obtain ⟨body, segs', hbody, hsegs', rfl, hend, htokens⟩ := hcomment hskip
          refine ⟨.comment c body :: segs', ⟨⟨hsign, hbody, hend⟩, hsegs'⟩, ?_, htokens⟩
          exact List.append_assoc (c :: body) (textOf segs') rest
        · exact ⟨segs, h, hskip.symm, rfl⟩
      · intro hskip
        rw [skipFrom, if_pos rfl] at hskip
        by_cases hc : c = '\n'
        · subst hc
          obtain ⟨segs', hsegs', htext, htokens⟩ := hspaced rfl hskip
          exact ⟨[], segs', List.not_mem_nil, hsegs', htext, Or.inr (by rw [htext]; rfl), htokens⟩
        · rw [bne_iff_ne.mpr hc] at hskip
          obtain ⟨body, segs', hbody, hsegs', rfl, hend, htokens⟩ := hcomment hskip
          refine ⟨c :: body, segs', ?_, hsegs', rfl, hend, htokens⟩
          rw [List.mem_cons, not_or]
          exact ⟨Ne.symm hc, hbody⟩

/-- What is left after ignored text begins with no more of it. -/
theorem skip_skipFrom (inComment : Bool) (cs : List Char) :
    skip (skipFrom inComment cs) = skipFrom inComment cs := by
  induction cs generalizing inComment with
  | nil => rfl
  | cons c cs ih =>
      rw [skipFrom]
      split_ifs with hcomment hspace hsign
      · exact ih _
      · exact ih _
      · exact ih _
      · rw [skip, skipFrom, if_neg Bool.false_ne_true, if_neg hspace, if_neg hsign]

/-- Before any of the tokens that a text is cut into, the text is laid out as the
tokens that come first. -/
theorem exists_layoutBefore {cs : List Char} {taken left : List (Token × Nat)}
    (h : (scan cs).tokens = taken ++ left) : ∃ segs rest, LaidOutBefore rest segs ∧
      textOf segs ++ rest = cs ∧ tokensOf segs = taken.map Prod.fst ∧ skip rest = rest ∧
      scan rest = ⟨left, (scan cs).stop⟩ := by
  induction taken generalizing cs with
  | nil =>
      have hnone : LaidOutBefore (skip cs) [] := trivial
      obtain ⟨segs, hsegs, htext, htokens⟩ := (exists_layout_of_skipFrom hnone).1 rfl
      refine ⟨segs, skip cs, hsegs, htext, htokens, skip_skipFrom false cs, ?_⟩
      rw [show scan (skip cs) = scan cs from scan_eq_of_skip_eq (skip_skipFrom false cs)]
      exact congrArg (Scanned.mk · _) h
  | cons t taken ih =>
      obtain ⟨cs', hnext, -, hscan⟩ := exists_of_scan_eq_cons (congrArg (Scanned.mk · _) h)
      obtain ⟨segs, rest, hsegs, rfl, htokens, hskip, hrest⟩ :=
        ih (congrArg Scanned.tokens hscan)
      obtain ⟨hcs, hlongest⟩ := next?_eq_some_iff.mp hnext
      have hlaid : LaidOutBefore rest (.token t.1 :: segs) := ⟨hlongest, hsegs⟩
      rw [← List.append_assoc] at hcs
      obtain ⟨segs', hsegs', htext, htokens'⟩ := (exists_layout_of_skipFrom hlaid).1 hcs
      refine ⟨segs', rest, hsegs', htext, ?_, hskip, ?_⟩
      · rw [htokens', tokensOf_token, htokens, List.map_cons]
      · rw [hrest, hscan]

/-- A text that is cut to the end is laid out as the tokens it is cut into. -/
theorem exists_layout {cs : List Char} (h : (scan cs).stop = []) :
    ∃ segs, LaidOut segs ∧ textOf segs = cs ∧
      tokensOf segs = (scan cs).tokens.map Prod.fst := by
  obtain ⟨segs, rest, hsegs, htext, htokens, hskip, hrest⟩ :=
    exists_layoutBefore (List.append_nil (scan cs).tokens).symm
  have hnil : rest = [] := by
    rw [← hskip, ← (next?_eq_none_of_scan_eq hrest).2, h]
  subst hnil
  exact ⟨segs, laidOutBefore_nil.mp hsegs, by simpa using htext, htokens⟩

end Token

end Conjunctive
