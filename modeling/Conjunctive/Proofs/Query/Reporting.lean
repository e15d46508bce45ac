import Conjunctive.Proofs.Lists
import Conjunctive.Proofs.Query.Layout
import Conjunctive.Query.Parse
import Mathlib.Algebra.Order.Group.Nat

/-!
# Where errors are reported

An error is reported at its place in the text, unless a comment sign in a string before
it, on the same line, makes the rest of the line look like a comment (`Overhung`). Then
the report is held back to the end of the line, or to the end of the white space there
(`passed`), and tells of nothing that was expected. `located_of_not_overhung` and
`located_of_overhung` say what is reported.
-/

namespace Conjunctive

namespace Token

/-! ### Pending ignored text -/

/-- Whether an error at a place may be reported at an index: no ignored text that began
so far goes on after it. -/
def Settled (text : List Char) (place i : Nat) : Prop :=
  place ≤ i ∧ ∀ j ≤ i, j + ignoredLength (text.drop j) ≤ i + 1

/-- What is pending, with what begins at one more index. -/
theorem pending_succ {text : List Char} {index pending : Nat}
    (h : ∀ m, pending ≤ m ↔ ∀ j < index, j + ignoredLength (text.drop j) ≤ m) (m : Nat) :
    max pending (index + ignoredLength (text.drop index)) ≤ m ↔
      ∀ j < index + 1, j + ignoredLength (text.drop j) ≤ m := by
  rw [Nat.max_le, h, Nat.forall_lt_succ_right]

/-- From any index on, the first one is found at which the error may be reported. -/
theorem settleFrom_eq {text : List Char} {place i : Nat} (hi : i < text.length)
    (h : Settled text place i) (hfirst : ∀ k < i, ¬ Settled text place k) {index pending : Nat}
    (hindex : index ≤ i)
    (hpending : ∀ m, pending ≤ m ↔ ∀ j < index, j + ignoredLength (text.drop j) ≤ m) :
    settleFrom place index pending (text.drop index) = i := by
  obtain ⟨n, rfl⟩ := Nat.exists_eq_add_of_le hindex
  induction n generalizing index pending with
  | zero =>
      rw [Nat.add_zero] at hi h ⊢
      have hsettled := (pending_succ hpending (index + 1)).mpr fun j hj =>
        h.2 j (Nat.le_of_lt_succ hj)
      rw [List.drop_eq_getElem_cons hi, settleFrom, ← List.drop_eq_getElem_cons hi,
        if_pos ⟨h.1, hsettled⟩]
  | succ n ih =>
      have hlt : index < text.length := by omega
      have hnot : ¬ (place ≤ index ∧
          max pending (index + ignoredLength (text.drop index)) ≤ index + 1) := by
        rintro ⟨hplace, hle⟩
        refine hfirst index (by omega) ⟨hplace, fun j hj => ?_⟩
        exact (pending_succ hpending _).mp hle j (Nat.lt_succ_of_le hj)
      rw [List.drop_eq_getElem_cons hlt, settleFrom, ← List.drop_eq_getElem_cons hlt, if_neg hnot]
      have hrest : index + (n + 1) = index + 1 + n := by omega
      rw [hrest] at hi h hfirst ⊢
      exact ih (pending_succ hpending) hi h hfirst (Nat.le_add_right _ _)

theorem settle_eq {text : List Char} {place i : Nat} (hi : i < text.length)
    (h : Settled text place i) (hfirst : ∀ k < i, ¬ Settled text place k) :
    settle text place = i :=
  settleFrom_eq hi h hfirst (Nat.zero_le i) fun m => by simp

theorem length_takeWhile_append_le {p : Char → Bool} {xs ys : List Char}
    (h : (∃ x ∈ xs, p x = false) ∨ ∀ y ∈ ys.head?, p y = false) :
    ((xs ++ ys).takeWhile p).length ≤ xs.length := by
  induction xs with
  | nil =>
      rcases h with ⟨x, hx, -⟩ | hys
      · cases hx
      · cases ys with
        | nil => exact Nat.le_refl 0
        | cons y ys =>
            rw [List.nil_append, List.takeWhile_cons_of_neg (by simp [hys y rfl])]
  | cons x xs ih =>
      by_cases hx : p x = true
      · rw [List.cons_append, List.takeWhile_cons_of_pos hx]
        refine Nat.succ_le_succ (ih (h.imp_left ?_))
        rintro ⟨y, hy, hpy⟩
        rcases List.mem_cons.mp hy with rfl | hy
        · exact absurd (hpy.symm.trans hx) Bool.false_ne_true
        · exact ⟨y, hy, hpy⟩
      · rw [List.cons_append, List.takeWhile_cons_of_neg hx]
        exact Nat.zero_le _

theorem ignoredLength_le {c : Char} {cs ds : List Char}
    (hspace : isSpace c = true → (∃ x ∈ cs, isSpace x = false) ∨ ∀ y ∈ ds.head?, isSpace y = false)
    (hsign : isCommentSign c = true → '\n' ∈ cs ∨ ∀ y ∈ ds.head?, y = '\n') :
    ignoredLength (c :: cs ++ ds) ≤ (c :: cs).length := by
  rw [List.cons_append, ignoredLength, ← List.cons_append]
  split_ifs with hc hc'
  · refine length_takeWhile_append_le ((hspace hc).imp_left ?_)
    rintro ⟨x, hx, hxspace⟩
    exact ⟨x, List.mem_cons_of_mem c hx, hxspace⟩
  · refine length_takeWhile_append_le ((hsign hc').imp (fun h => ?_) fun h y hy => ?_)
    · exact ⟨'\n', List.mem_cons_of_mem c h, rfl⟩
    · rw [h y hy]
      rfl
  · exact Nat.zero_le _

theorem le_ignoredLength_of_isSpace {c : Char} {cs : List Char}
    (h : ∀ x ∈ c :: cs, isSpace x = true) (ds : List Char) :
    (c :: cs).length ≤ ignoredLength (c :: cs ++ ds) := by
  rw [List.cons_append, ignoredLength, ← List.cons_append, if_pos (h c List.mem_cons_self),
    List.takeWhile_append_of_pos h, List.length_append]
  exact Nat.le_add_right _ _

theorem le_ignoredLength_of_isCommentSign {c : Char} {cs : List Char}
    (hc : isCommentSign c = true) (hcs : '\n' ∉ cs) (ds : List Char) :
    (c :: cs).length ≤ ignoredLength (c :: cs ++ ds) := by
  have hspace := isSpace_eq_false_of_isCommentSign hc
  have hline : ∀ x ∈ c :: cs, (x != '\n') = true := by
    intro x hx
    rw [bne_iff_ne]
    rintro rfl
    rcases List.mem_cons.mp hx with rfl | hx
    · cases hspace
    · exact hcs hx
  rw [List.cons_append, ignoredLength, ← List.cons_append, if_neg (by simp [hspace]), if_pos hc,
    List.takeWhile_append_of_pos hline, List.length_append]
  exact Nat.le_add_right _ _

/-- An error may be reported at the last character of a first part of a text if the
white space and the comments in this part, real or not, end in it. -/
theorem settled_of_ends {cs ds : List Char} {place : Nat} (hplace : place < cs.length)
    (hspace : (∀ c ∈ cs.getLast?, isSpace c = false) ∨ ∀ d ∈ ds.head?, isSpace d = false)
    (hsign : ∀ l c r, cs = l ++ c :: r → isCommentSign c = true →
      '\n' ∈ r ∨ ∀ d ∈ ds.head?, d = '\n') :
    Settled (cs ++ ds) place (cs.length - 1) := by
  refine ⟨Nat.le_sub_one_of_lt hplace, fun j hj => ?_⟩
  have hlt : j < cs.length := by omega
  obtain ⟨l, c, r, rfl, rfl⟩ : ∃ l c r, cs = l ++ c :: r ∧ l.length = j :=
    ⟨cs.take j, cs[j], cs.drop (j + 1), by rw [← List.drop_eq_getElem_cons, List.take_append_drop],
      List.length_take_of_le hlt.le⟩
  have hle : ignoredLength (c :: r ++ ds) ≤ (c :: r).length := by
    refine ignoredLength_le (fun hc => hspace.imp_left fun hlast => ?_) (hsign l c r rfl)
    rcases List.eq_nil_or_concat r with rfl | ⟨r, d, rfl⟩
    · rw [hlast c (by simp)] at hc
      cases hc
    · refine ⟨d, by simp, hlast d ?_⟩
      rw [List.concat_eq_append, ← List.cons_append, ← List.append_assoc]
      exact List.getLast?_concat
  rw [List.append_assoc, List.drop_left, List.length_append]
  omega

/-- While white space or a comment is pending, no error may be reported. -/
theorem not_settled_of_pending (l : List Char) {r ds : List Char} {c : Char} {place k : Nat}
    (h : (c :: r).length ≤ ignoredLength (c :: r ++ ds)) (hl : l.length ≤ k)
    (hk : k + 1 < (l ++ c :: r).length) : ¬ Settled (l ++ c :: r ++ ds) place k := by
  rintro ⟨-, hall⟩
  have hle := hall l.length hl
  rw [List.append_assoc, List.drop_left] at hle
  rw [List.length_append] at hk
  omega

/-! ### Where a report is held back to -/

/-- Whether the report of an error is held back: a comment sign, which is part of a
string, stands before the place on its line, and the line goes on after the character
there. -/
def Overhung (before rest : List Char) : Prop :=
  (∃ l sign r, before = l ++ sign :: r ∧ isCommentSign sign = true ∧ '\n' ∉ r) ∧
    ∃ c d cs, rest = c :: d :: cs ∧ d ≠ '\n'

/-- What a report that is held back comes at the end of: the rest of the line, and if it
ends in white space, what follows of this. -/
def passed (rest : List Char) : List Char :=
  let line := rest.takeWhile (· != '\n')
  if line.getLast?.any isSpace then line ++ (rest.dropWhile (· != '\n')).takeWhile isSpace
  else line

variable {before rest : List Char}

theorem not_ignored_of_skip_eq {c : Char} {cs : List Char} (h : skip (c :: cs) = c :: cs) :
    isSpace c = false ∧ isCommentSign c = false := by
  rw [skip, skipFrom, if_neg Bool.false_ne_true] at h
  have hlt : ∀ b, skipFrom b cs ≠ c :: cs := fun b heq => by
    have hle := length_skipFrom_le b cs
    rw [heq, List.length_cons] at hle
    omega
  split_ifs at h with hspace hsign
  · exact absurd h (hlt false)
  · exact absurd h (hlt true)
  · exact ⟨Bool.eq_false_iff.mpr hspace, Bool.eq_false_iff.mpr hsign⟩

/-- An error is reported at its place if no report is held back. -/
theorem settle_of_not_overhung (hskip : skip rest = rest) (hne : rest ≠ [])
    (h : ¬ Overhung before rest) : settle (before ++ rest) before.length = before.length := by
  obtain ⟨c, cs, rfl⟩ := List.exists_cons_of_ne_nil hne
  obtain ⟨hspace, hsign⟩ := not_ignored_of_skip_eq hskip
  have hsettled : Settled (before ++ [c] ++ cs) before.length ((before ++ [c]).length - 1) := by
    refine settled_of_ends (by simp) (Or.inl (by simpa using hspace)) fun l s r heq hs => ?_
    rcases append_eq_append_cons heq with ⟨r, rfl, rfl⟩ | ⟨l, rfl, hcs⟩
    · by_contra hnone
      rw [not_or, List.mem_append, not_or] at hnone
      obtain ⟨⟨hr, -⟩, hline⟩ := hnone
      push Not at hline
      obtain ⟨d, hd, hdne⟩ := hline
      obtain ⟨ds, rfl⟩ := List.head?_eq_some_iff.mp hd
      exact h ⟨⟨l, s, r, rfl, hs, hr⟩, c, d, ds, rfl, hdne⟩
    · obtain rfl : c = s := by
        cases l with
        | nil => exact (List.cons.inj hcs).1
        | cons _ l => exact absurd (List.cons.inj hcs).2 (by simp)
      exact absurd (hsign.symm.trans hs) Bool.false_ne_true
  rw [List.append_assoc, List.length_append, List.length_singleton, Nat.add_sub_cancel] at hsettled
  exact settle_eq (by simp) hsettled fun k hk hk' => absurd hk'.1 (Nat.not_le.mpr hk)

/-- Whether neither white space nor a comment goes on after a character of a line and a
run of white space that it begins: what follows is the end of the line if there is no run,
and else no more white space, after a run that ends the line. -/
def RunsOut (c : Char) (run after : List Char) : Prop :=
  isSpace c = false ∧ run = [] ∧ (∀ d ∈ after.head?, d = '\n') ∨
    (∀ d ∈ c :: run, isSpace d = true) ∧ (∀ d ∈ after.head?, isSpace d = false) ∧
      ('\n' ∈ run ∨ after = [])

/-- What is passed is the rest of the line and what runs out after it. -/
theorem exists_passed {c : Char} (cs : List Char) (hc : c ≠ '\n') :
    ∃ line d run after, passed (c :: cs) = line ++ d :: run ∧ c :: cs = line ++ d :: run ++ after ∧
      '\n' ∉ line ++ [d] ∧ RunsOut d run after := by
  have hsplit := List.takeWhile_append_dropWhile (p := (· != '\n')) (l := c :: cs)
  have hline : '\n' ∉ (c :: cs).takeWhile (· != '\n') := fun h => by
    cases List.mem_takeWhile_imp h
  have hrest : ∀ y ∈ ((c :: cs).dropWhile (· != '\n')).head?, y = '\n' := fun y hy => by
    simpa using eq_false_of_mem_head?_dropWhile hy
  rw [passed]
  generalize hrest' : (c :: cs).dropWhile (· != '\n') = rest at *
  rcases List.eq_nil_or_concat ((c :: cs).takeWhile (· != '\n')) with hnil | ⟨line, d, hlast⟩
  · rw [List.takeWhile_cons_of_pos (by simpa using hc)] at hnil
    cases hnil
  rw [List.concat_eq_append] at hlast
  rw [hlast] at hsplit hline ⊢
  rw [List.getLast?_concat, Option.any_some]
  by_cases hd : isSpace d = true
  · refine ⟨line, d, rest.takeWhile isSpace, rest.dropWhile isSpace, ?_, ?_, hline,
      Or.inr ⟨?_, ?_, ?_⟩⟩
    · rw [if_pos hd, List.append_assoc, List.singleton_append]
    · rw [← hsplit, List.append_assoc, List.append_assoc, List.singleton_append,
        List.cons_append, List.takeWhile_append_dropWhile]
    · rw [List.forall_mem_cons]
      exact ⟨hd, fun x hx => List.mem_takeWhile_imp hx⟩
    · exact fun y hy => eq_false_of_mem_head?_dropWhile hy
    · cases rest with
      | nil => exact Or.inr rfl
      | cons y ys =>
          obtain rfl := hrest y rfl
          exact Or.inl (by simp [isSpace])
  · refine ⟨line, d, [], rest, ?_, hsplit.symm, hline,
      Or.inl ⟨Bool.eq_false_iff.mpr hd, rfl, hrest⟩⟩
    rw [if_neg hd]

/-- A report that is held back passes more than one character. -/
theorem exists_append_passed (h : Overhung before rest) (hrest : rest.head? ≠ some '\n') :
    (∃ after, rest = passed rest ++ after) ∧ 1 < (passed rest).length := by
  obtain ⟨-, c, d, cs, rfl, hd⟩ := h
  obtain ⟨line, x, run, after, hpassed, htext, -, hends⟩ :=
    exists_passed (d :: cs) (by simpa using hrest)
  rw [hpassed]
  refine ⟨⟨after, htext⟩, ?_⟩
  by_contra hshort
  obtain ⟨rfl, rfl⟩ : line = [] ∧ run = [] := by
    rw [List.length_append, List.length_cons] at hshort
    exact ⟨List.length_eq_zero_iff.mp (by omega), List.length_eq_zero_iff.mp (by omega)⟩
  obtain ⟨rfl, rfl⟩ := List.cons.inj htext
  rcases hends with ⟨-, -, hafter⟩ | ⟨-, -, hafter⟩
  · exact hd (hafter d rfl)
  · rcases hafter with hafter | hafter <;> cases hafter

variable {line run after : List Char} {d : Char}

/-- An error may be reported where white space and comments have run out. -/
theorem settled_of_runsOut (h : RunsOut d run after) :
    Settled (before ++ (line ++ d :: run) ++ after) before.length
      ((before ++ (line ++ d :: run)).length - 1) := by
  refine settled_of_ends (by simp) ?_ fun l sign r heq hsign => ?_
  · rcases h with ⟨hd, rfl, -⟩ | ⟨-, hafter, -⟩
    · refine Or.inl fun c hc => ?_
      rw [← List.append_assoc, List.getLast?_concat] at hc
      cases hc
      exact hd
    · exact Or.inr hafter
  · rcases h with ⟨-, -, hafter⟩ | ⟨hspaces, -, hafter⟩
    · exact Or.inr hafter
    · rw [← List.append_assoc] at heq
      rcases append_eq_append_cons heq with ⟨r, -, rfl⟩ | ⟨l, -, hrun⟩
      · refine hafter.imp (fun hmem => by simp [hmem]) fun hnil => ?_
        rw [hnil]
        nofun
      · have hspace := hspaces sign (by rw [hrun]; simp)
        rw [isSpace_eq_false_of_isCommentSign hsign] at hspace
        cases hspace

/-- After a comment sign on the line, no error may be reported before white space and
comments have run out. -/
theorem not_settled_of_runsOut {l r : List Char} {sign : Char} (hsign : isCommentSign sign = true)
    (hline : '\n' ∉ r ++ (line ++ [d])) (h : RunsOut d run after) {k : Nat}
    (hk : k < (l ++ sign :: r ++ (line ++ d :: run)).length - 1) :
    ¬ Settled (l ++ sign :: r ++ (line ++ d :: run) ++ after) (l ++ sign :: r).length k := by
  intro hsettled
  have hplace : (l ++ sign :: r).length ≤ k := hsettled.1
  -- the comment sign holds the report back up to the end of the line, and the white space
  -- there up to its own end
  by_cases hk' : k + 1 < (l ++ sign :: (r ++ (line ++ [d]))).length
  · have hpending := le_ignoredLength_of_isCommentSign hsign hline (run ++ after)
    refine not_settled_of_pending l hpending ?_ hk' (by simpa using hsettled)
    simp at hplace
    omega
  · rcases h with ⟨-, rfl, -⟩ | ⟨hspaces, -, -⟩
    · simp at hk hk'
      omega
    · have hpending := le_ignoredLength_of_isSpace hspaces after
      refine not_settled_of_pending (l ++ sign :: r ++ line) hpending ?_ ?_
        (by simpa using hsettled)
      · simp at hk' ⊢
        omega
      · simp at hk ⊢
        omega

/-- A report that is held back comes at the last character that is passed. -/
theorem settle_of_overhung (h : Overhung before rest) (hrest : rest.head? ≠ some '\n') :
    settle (before ++ rest) before.length = (before ++ passed rest).length - 1 := by
  obtain ⟨⟨l, sign, r, rfl, hsign, hr⟩, c, d, cs, rfl, -⟩ := h
  obtain ⟨line, x, run, after, hpassed, htext, hline, hends⟩ :=
    exists_passed (d :: cs) (by simpa using hrest)
  have hpast : '\n' ∉ r ++ (line ++ [x]) := by
    rw [List.mem_append, not_or]
    exact ⟨hr, hline⟩
  rw [hpassed, htext, ← List.append_assoc]
  refine settle_eq ?_ (settled_of_runsOut hends) fun k hk =>
    not_settled_of_runsOut hsign hpast hends hk
  simp only [List.length_append, List.length_cons]
  omega

end Token

/-! ### The report -/

/-- The line and the column of what comes after a first part of a text, both counted
from 1. -/
def position (before : List Char) : Nat × Nat :=
  (before.count '\n' + 1, (before.reverse.takeWhile (· != '\n')).length + 1)

namespace ParseError

open Token

variable {before rest : List Char}

/-- An error at the position after a first part of a text. -/
def unexpectedAfter (before : List Char) (expected : List Terminal) : ParseError :=
  .unexpectedCharacters (position before).1 (position before).2 expected

theorem located_of_not_overhung (hskip : skip rest = rest) (hne : rest ≠ [])
    (h : ¬ Overhung before rest) (expected : List Terminal) :
    located (before ++ rest) rest.length expected = unexpectedAfter before expected := by
  rw [located, List.length_append, Nat.add_sub_cancel, settle_of_not_overhung hskip hne h,
    List.take_left, if_pos rfl]
  rfl

theorem located_of_overhung (h : Overhung before rest) (hrest : rest.head? ≠ some '\n')
    (expected : List Terminal) : located (before ++ rest) rest.length expected =
      unexpectedAfter (before ++ (passed rest).dropLast) [] := by
  obtain ⟨⟨after, hafter⟩, hlength⟩ := exists_append_passed h hrest
  have hne : passed rest ≠ [] := List.ne_nil_of_length_pos (by omega)
  have hreported : (before ++ rest).take ((before ++ passed rest).length - 1) =
      before ++ (passed rest).dropLast := by
    have htext : before ++ rest = before ++ passed rest ++ after := by
      rw [List.append_assoc, ← hafter]
    rw [htext, List.take_append_of_le_length (Nat.sub_le _ _),
      ← List.dropLast_eq_take, List.dropLast_append_of_ne_nil hne]
  rw [located, List.length_append, Nat.add_sub_cancel, settle_of_overhung h hrest, hreported,
    if_neg (by rw [List.length_append]; omega)]
  rfl

end ParseError

end Conjunctive
