import Conjunctive.Query.Splitting
import Conjunctive.Proofs.Query.Grammar
import Conjunctive.Proofs.Query.Layout
import Mathlib.Data.List.DropRight

/-!
# Pieces of a text

A text in pieces has tokens with white space between some of them (`Spaced`).
Stripping a piece and adding it to others changes its white space only. That the
tokens are the longest where they stand now needs no white space: after a name or
a number only a parenthesis or a comma is read (`Token.Follows`), and these go on
with neither (`laidOut_of_loose`).
-/

namespace Conjunctive

open Segment

/-! ### Tokens that stand side by side -/

/-- What is known of a token that is read next after another. -/
structure Token.Follows (t u : Token) : Prop where
  before_dot : u = .dot → t = .arrow ∨ t = .closing
  after_word : t.IsWord → u = .opening ∨ u = .comma ∨ u = .closing

namespace Reading

/-- What may be read after a token. -/
theorem expected_of_step {r r' : Reading} {t : Token} (h : r.step t = some r') :
    (.dot ∈ r'.stage.expected → t = .arrow ∨ t = .closing) ∧
      (t.IsWord → ∀ k ∈ r'.stage.expected, k = .opening ∨ k = .comma ∨ k = .closing) := by
  obtain ⟨queries, stage⟩ := r
  cases stage <;> cases t <;> cases h <;> simp [Stage.expected, Token.IsWord]

theorem follows_of_step {r r' r'' : Reading} {t u : Token} (ht : r.step t = some r')
    (hu : r'.step u = some r'') : t.Follows u := by
  have hexpected : u.terminal ∈ r'.stage.expected := by
    rw [← isSome_step, hu]
    rfl
  obtain ⟨hdot, hword⟩ := expected_of_step ht
  constructor
  · rintro rfl
    exact hdot hexpected
  · intro hisWord
    have hterminal := hword hisWord u.terminal hexpected
    cases u <;> simp_all [Token.terminal]

theorem Leads.isChain {r r' : Reading} {ts : List Token} (h : r.Leads ts r') :
    ts.IsChain Token.Follows := by
  induction ts generalizing r with
  | nil => exact .nil
  | cons t ts ih =>
      rw [Leads, List.foldlM_cons] at h
      obtain ⟨r₁, ht, hrest⟩ := Option.bind_eq_some_iff.mp h
      have htail := ih hrest
      cases ts with
      | nil => exact .singleton t
      | cons u ts =>
          rw [List.foldlM_cons] at hrest
          obtain ⟨r₂, hu, -⟩ := Option.bind_eq_some_iff.mp hrest
          exact .cons_cons (follows_of_step ht hu) htail

end Reading

/-! ### The characters of tokens -/

namespace Token

theorem toNat_of_isWordPart {c : Char} (h : isWordPart c = true) :
    45 ≤ c.toNat ∧ c.toNat ≤ 122 := by
  simp only [Token.isWordPart, isRelationPart, Bool.or_eq_true, beq_iff_eq, isAlphanum_iff,
    isUpper_iff, isLower_iff, isDigit_iff] at h
  rcases h with ((h | rfl) | rfl) | rfl
  · omega
  all_goals decide

theorem isBlank_of_isWordPart {c : Char} (h : isWordPart c = true) : Text.isBlank c = false := by
  obtain ⟨h₁, h₂⟩ := toNat_of_isWordPart h
  have hrange : Text.inRanges [(45, 122)] c = true :=
    Text.inRanges_iff.mpr ⟨(45, 122), by simp, h₁, h₂⟩
  exact Text.inRanges_eq_false_of_disjoint (by decide) hrange

/-- A token neither begins nor ends with a blank. -/
theorem Fits.isBlank_ends {t : Token} (h : t.Fits) :
    (∀ c ∈ t.spelling.head?, Text.isBlank c = false) ∧
      ∀ c ∈ t.spelling.getLast?, Text.isBlank c = false := by
  by_cases hword : t.IsWord
  · have hall : ∀ c ∈ t.spelling, Text.isBlank c = false :=
      fun c hc => isBlank_of_isWordPart (h.isWordPart hword c hc)
    exact ⟨fun c hc => hall c (List.mem_of_mem_head? hc),
      fun c hc => hall c (List.mem_of_mem_getLast? hc)⟩
  · cases t with
    | string quote body =>
        have hquote : Text.isBlank quote = false := by
          rcases h.1 with rfl | rfl <;> decide
        refine ⟨by simp [spelling, hquote], fun c hc => ?_⟩
        rw [spelling, List.getLast?_concat] at hc
        cases hc
        exact hquote
    | relation name => exact absurd trivial hword
    | «variable» name => exact absurd trivial hword
    | number digits => exact absurd trivial hword
    | _ =>
        constructor <;>
          · intro c hc
            cases hc
            decide

end Token

/-! ### Tokens with white space between them -/

/-- Whether a segment is white space or a token, whatever comes after it. -/
def Segment.Loose : Segment → Prop
  | token t => t.Fits
  | space c => Token.isSpace c = true
  | comment _ _ => False

/-- A text is made of some tokens and white space. -/
def Spaced (cs : List Char) (ts : List Token) : Prop :=
  ∃ segs : List Segment, (∀ s ∈ segs, s.Loose) ∧ textOf segs = cs ∧ tokensOf segs = ts

theorem isWordPart_of_isSpace {c : Char} (h : Token.isSpace c = true) :
    Token.isWordPart c = false := by
  rw [Bool.eq_false_iff]
  intro hword
  have hspace := (Token.not_ignored (by decide) hword).1
  rw [h] at hspace
  cases hspace

/-- Where the tokens are such as are read one after the other, each is the longest. -/
theorem laidOut_of_loose {segs : List Segment} (hloose : ∀ s ∈ segs, s.Loose)
    (hchain : (tokensOf segs).IsChain Token.Follows) : LaidOut segs := by
  induction segs with
  | nil => trivial
  | cons s segs ih =>
      obtain ⟨hs, hsegs⟩ := List.forall_mem_cons.mp hloose
      cases s with
      | comment sign body => cases hs
      | space c => exact ⟨hs, ih hsegs hchain⟩
      | token t =>
          refine ⟨?_, ih hsegs hchain.of_cons⟩
          by_cases hword : t.IsWord
          · refine Token.Fits.longest_of_isWord hs hword fun c hc => ?_
            cases segs with
            | nil => cases hc
            | cons s segs =>
                cases s with
                | comment sign body => cases hsegs _ (List.mem_cons_self ..)
                | space d =>
                    have hd : Token.isSpace d = true := hsegs _ (List.mem_cons_self ..)
                    cases hc
                    exact isWordPart_of_isSpace hd
                | token u =>
                    have hfollows : t.Follows u := (List.isChain_cons_cons.mp hchain).1
                    rcases hfollows.after_word hword with rfl | rfl | rfl <;> cases hc <;> decide
          · exact Token.Fits.longest_of_not_isWord hs hword (textOf segs)

theorem isBlank_of_isSpace {c : Char} (h : Token.isSpace c = true) : Text.isBlank c = true := by
  simp only [Token.isSpace, Bool.or_eq_true, beq_iff_eq] at h
  rcases h with (((rfl | rfl) | rfl) | rfl) | rfl <;> decide

theorem isDigit_of_isSpace {c : Char} (h : Token.isSpace c = true) : Text.isDigit c = false := by
  simp only [Token.isSpace, Bool.or_eq_true, beq_iff_eq] at h
  rcases h with (((rfl | rfl) | rfl) | rfl) | rfl <;> decide

namespace Spaced

variable {cs ds : List Char} {ts us : List Token}

theorem nil : Spaced [] [] := ⟨[], by simp, rfl, rfl⟩

theorem token {t : Token} (h : t.Fits) : Spaced t.spelling [t] :=
  ⟨[.token t], List.forall_mem_singleton.mpr h, by simp [Segment.text], rfl⟩

theorem space {c : Char} (h : Token.isSpace c = true) : Spaced [c] [] :=
  ⟨[.space c], List.forall_mem_singleton.mpr h, rfl, rfl⟩

theorem append (h : Spaced cs ts) (h' : Spaced ds us) : Spaced (cs ++ ds) (ts ++ us) := by
  obtain ⟨segs, hloose, rfl, rfl⟩ := h
  obtain ⟨segs', hloose', rfl, rfl⟩ := h'
  refine ⟨segs ++ segs', fun s hs => ?_, textOf_append segs segs', tokensOf_append segs segs'⟩
  rcases List.mem_append.mp hs with hs | hs
  · exact hloose s hs
  · exact hloose' s hs

/-- No token is spelled by nothing. -/
theorem eq_nil (h : Spaced [] ts) : ts = [] := by
  obtain ⟨segs, hloose, htext, rfl⟩ := h
  cases segs with
  | nil => rfl
  | cons s segs =>
      have hs := hloose s (List.mem_cons_self ..)
      cases s with
      | comment sign body => cases hs
      | space c => cases htext
      | token t =>
          obtain ⟨c, cs, heq, -⟩ := Token.Fits.exists_cons hs
          rw [textOf_cons, Segment.text, heq] at htext
          cases htext

/-- Without tokens there is nothing but blanks. -/
theorem isBlank_of_mem (h : Spaced cs []) : ∀ c ∈ cs, Text.isBlank c = true := by
  obtain ⟨segs, hloose, rfl, htokens⟩ := h
  intro c hc
  obtain ⟨s, hs, hcs⟩ := List.mem_flatMap.mp hc
  have hsloose := hloose s hs
  cases s with
  | comment sign body => cases hsloose
  | space d =>
      rw [List.mem_singleton.mp hcs]
      exact isBlank_of_isSpace hsloose
  | token t =>
      have hmem : t ∈ tokensOf segs := List.mem_filterMap.mpr ⟨.token t, hs, rfl⟩
      rw [htokens] at hmem
      cases hmem

theorem dropWhile (h : Spaced cs ts) : Spaced (cs.dropWhile Text.isBlank) ts := by
  obtain ⟨segs, hloose, rfl, rfl⟩ := h
  induction segs with
  | nil => exact nil
  | cons s segs ih =>
      obtain ⟨hs, hsegs⟩ := List.forall_mem_cons.mp hloose
      cases s with
      | comment sign body => cases hs
      | space c =>
          have hblank := isBlank_of_isSpace hs
          rw [textOf_cons, Segment.text, List.singleton_append, List.dropWhile_cons_of_pos hblank]
          exact ih hsegs
      | token t =>
          obtain ⟨c, cs, heq, -⟩ := Token.Fits.exists_cons hs
          have hblank : Text.isBlank c = false :=
            (Token.Fits.isBlank_ends hs).1 c (by rw [heq]; rfl)
          rw [textOf_cons, Segment.text, heq, List.cons_append,
            List.dropWhile_cons_of_neg (by simp [hblank])]
          refine ⟨.token t :: segs, hloose, ?_, rfl⟩
          rw [textOf_cons, Segment.text, heq, List.cons_append]

theorem rdropWhile (h : Spaced cs ts) : Spaced (cs.rdropWhile Text.isBlank) ts := by
  obtain ⟨segs, hloose, rfl, rfl⟩ := h
  induction segs using List.reverseRecOn with
  | nil => exact nil
  | append_singleton segs s ih =>
      have hs := hloose s (by simp)
      have hsegs : ∀ s ∈ segs, s.Loose := fun s hs => hloose s (List.mem_append_left _ hs)
      cases s with
      | comment sign body => cases hs
      | space c =>
          have hblank := isBlank_of_isSpace hs
          have htext : textOf (segs ++ [.space c]) = textOf segs ++ [c] := by simp [Segment.text]
          have htokens : tokensOf (segs ++ [.space c]) = tokensOf segs := by simp
          rw [htext, htokens, List.rdropWhile_concat_pos _ _ _ hblank]
          exact ih hsegs
      | token t =>
          obtain ⟨d, ds, hne, -⟩ := Token.Fits.exists_cons hs
          obtain ⟨cs, c, heq⟩ : ∃ cs c, t.spelling = cs ++ [c] :=
            (List.eq_nil_or_concat' t.spelling).resolve_left (hne ▸ List.cons_ne_nil d ds)
          have hblank : Text.isBlank c = false :=
            (Token.Fits.isBlank_ends hs).2 c (by rw [heq]; simp)
          have htext : textOf (segs ++ [.token t]) = textOf segs ++ cs ++ [c] := by
            simp [Segment.text, heq]
          rw [htext, List.rdropWhile_concat_neg _ _ _ (by simp [hblank]), ← htext]
          exact ⟨_, hloose, rfl, rfl⟩

/-- Blanks at the ends are no part of tokens. -/
theorem strip (h : Spaced cs ts) : Spaced (Text.strip cs) ts := h.dropWhile.rdropWhile

theorem strip_eq_nil (h : Spaced cs []) : Text.strip cs = [] := by
  rw [Text.strip, List.dropWhile_eq_nil_iff.mpr h.isBlank_of_mem]
  rfl

end Spaced

/-- What was gathered of a query: some tokens with white space between them, and nothing
at all if there was no token. -/
structure Gathered (cs : List Char) (ts : List Token) : Prop where
  spaced : Spaced cs ts
  eq_nil : ts = [] → cs = []

/-- A piece adds its tokens to those gathered. -/
theorem Gathered.extend {cs ds : List Char} {ts us : List Token} (h : Gathered cs ts)
    (hpiece : Spaced ds us) : Gathered (Splitting.extend cs ds) (ts ++ us) := by
  have hstrip := hpiece.strip
  rw [Splitting.extend]
  split
  next heq =>
    rw [heq] at hstrip
    rw [hstrip.eq_nil, List.append_nil]
    exact h
  next hne =>
    have hus : us ≠ [] := by
      rintro rfl
      exact hne hpiece.strip_eq_nil
    have hnil : ts ++ us ≠ [] := fun h => hus (List.append_eq_nil_iff.mp h).2
    split_ifs with hcs
    · subst hcs
      rw [h.spaced.eq_nil, List.nil_append]
      exact ⟨hstrip, fun h => absurd h hus⟩
    · have hspaced := (h.spaced.append (Spaced.space (c := ' ') rfl)).append hstrip
      rw [List.append_nil, List.append_assoc] at hspaced
      exact ⟨hspaced, fun h => absurd h hnil⟩

end Conjunctive
