import Conjunctive.Proofs.Query.Parse

/-!
# Beginnings of texts

Some tokens are viable if further ones make them those of a text of queries
(`IsViable`). Whatever was read can be completed (`Reading.leads_completion`), and so
tokens are viable just if each is well spelled and all are read (`isViable_iff`). The
kinds of token that a stage expects are those that keep what was read viable
(`mem_expected_iff`).
-/

namespace Conjunctive

open Segment

/-- Whether some tokens are those of a text of queries. -/
def IsText (ts : List Token) : Prop :=
  ∃ segs trees, LaidOut segs ∧ tokensOf segs = ts ∧ trees ≠ [] ∧ programTokens trees = ts

/-- Whether some tokens are the first ones of a text of queries. -/
def IsViable (ts : List Token) : Prop := ∃ us, IsText (ts ++ us)

/-! ### Tokens with spaces between them -/

/-- Some tokens, each with a space after it. -/
def spaced (ts : List Token) : List Segment := ts.flatMap fun t => [.token t, .space ' ']

theorem tokensOf_spaced (ts : List Token) : tokensOf (spaced ts) = ts := by
  induction ts with
  | nil => rfl
  | cons t ts ih => exact congrArg (t :: ·) ih

theorem Token.Fits.longest_space {t : Token} (h : t.Fits) (rest : List Char) :
    t.Longest (' ' :: rest) := by
  by_cases hword : t.IsWord
  · refine h.longest_of_isWord hword fun c hc => ?_
    cases hc
    decide
  · exact h.longest_of_not_isWord hword _

theorem laidOut_spaced {ts : List Token} (h : ∀ t ∈ ts, t.Fits) : LaidOut (spaced ts) := by
  induction ts with
  | nil => trivial
  | cons t ts ih =>
      rw [List.forall_mem_cons] at h
      exact ⟨h.1.longest_space _, rfl, ih h.2⟩

theorem isText_iff {ts : List Token} : IsText ts ↔ (∀ t ∈ ts, t.Fits) ∧
    ∃ queries, queries ≠ [] ∧ Reading.initial.Leads ts ⟨queries, .start⟩ := by
  constructor
  · rintro ⟨segs, trees, hsegs, htokens, hne, rfl⟩
    have hfits : ∀ t ∈ programTokens trees, t.Fits := fun t ht =>
      (laidOutBefore_nil.mpr hsegs).fits_of_mem (htokens ▸ ht)
    exact ⟨hfits, trees.map QueryTree.form, by simpa using hne, Reading.leads_program trees⟩
  · rintro ⟨hfits, queries, hne, hleads⟩
    obtain ⟨trees, rfl, rfl⟩ := Reading.leads_start_iff.mp hleads
    refine ⟨spaced _, trees, laidOut_spaced hfits, tokensOf_spaced _, ?_, rfl⟩
    simpa using hne

/-! ### Completing what was read -/

/-- A token of each kind. -/
def Terminal.sample : Terminal → Token
  | relation => .relation ['A']
  | .variable => .variable ['x']
  | number => .number ['0']
  | string => .string Text.apostrophe []
  | arrow => .arrow
  | dot => .dot
  | comma => .comma
  | opening => .opening
  | closing => .closing

theorem Terminal.terminal_sample (T : Terminal) : T.sample.terminal = T := by
  cases T <;> rfl

theorem Terminal.fits_sample (T : Terminal) : T.sample.Fits := by
  cases T with
  | relation => exact ⟨'A', [], rfl, rfl, List.forall_mem_nil _⟩
  | «variable» => exact ⟨['x'], [], rfl, List.cons_ne_nil _ _, List.forall_mem_singleton.mpr rfl,
      List.forall_mem_nil _⟩
  | number => exact Or.inl (Or.inl ⟨List.cons_ne_nil _ _, List.forall_mem_singleton.mpr rfl⟩)
  | string => exact ⟨Or.inl rfl, .nil⟩
  | _ => trivial

/-- The kinds of token that complete a query after an atom of it. -/
def Place.completion : Place → List Terminal
  | .head => [.arrow, .dot]
  | .body _ _ => [.dot]

/-- The kinds of token that complete the query at hand, or make up another one if there
is none at hand. -/
def Stage.completion : Stage → List Terminal
  | .start => [.relation, .opening, .closing, .arrow, .dot]
  | .name place _ => .opening :: .closing :: place.completion
  | .opened place _ => .closing :: place.completion
  | .term place _ _ => .closing :: place.completion
  | .moreTerms place _ _ => .variable :: .closing :: place.completion
  | .head _ => [.arrow, .dot]
  | .arrow _ => [.dot]
  | .atom _ _ => [.dot]
  | .moreAtoms _ _ => [.relation, .opening, .closing, .dot]

namespace Reading

theorem leads_placeCompletion (queries : List (QueryForm Term)) (place : Place)
    (a : AtomForm Term) : ∃ q, Leads ⟨queries, .afterAtom place a⟩
      (place.completion.map Terminal.sample) ⟨queries ++ [q], .start⟩ := by
  cases place <;> exact ⟨_, rfl⟩

/-- Whatever was read can be completed. -/
theorem leads_completion (r : Reading) :
    ∃ queries q, r.Leads (r.stage.completion.map Terminal.sample) ⟨queries ++ [q], .start⟩ := by
  obtain ⟨queries, stage⟩ := r
  refine ⟨queries, ?_⟩
  cases stage with
  | name place n =>
      obtain ⟨q, hq⟩ := leads_placeCompletion queries place ⟨n, []⟩
      exact ⟨q, .cons rfl (.cons rfl hq)⟩
  | opened place n =>
      obtain ⟨q, hq⟩ := leads_placeCompletion queries place ⟨n, []⟩
      exact ⟨q, .cons rfl hq⟩
  | term place n terms =>
      obtain ⟨q, hq⟩ := leads_placeCompletion queries place ⟨n, terms⟩
      exact ⟨q, .cons rfl hq⟩
  | moreTerms place n terms =>
      obtain ⟨q, hq⟩ := leads_placeCompletion queries place ⟨n, terms ++ [.variable "x"]⟩
      exact ⟨q, .cons rfl (.cons rfl hq)⟩
  | _ => exact ⟨_, rfl⟩

theorem leads_append_iff {r r'' : Reading} {ts us : List Token} :
    r.Leads (ts ++ us) r'' ↔ ∃ r', r.Leads ts r' ∧ r'.Leads us r'' := by
  rw [Leads, List.foldlM_append]
  exact Option.bind_eq_some_iff

theorem leads_singleton_iff {r r' : Reading} {t : Token} :
    r.Leads [t] r' ↔ r.step t = some r' := by
  rw [Leads, List.foldlM_cons]
  cases r.step t <;> exact Iff.rfl

end Reading

/-- Tokens are viable if each is well spelled and all are read. -/
theorem isViable_iff {ts : List Token} :
    IsViable ts ↔ (∀ t ∈ ts, t.Fits) ∧ ∃ r, Reading.initial.Leads ts r := by
  simp only [IsViable, isText_iff, List.forall_mem_append, Reading.leads_append_iff]
  constructor
  · rintro ⟨us, ⟨hts, -⟩, queries, -, r, hr, -⟩
    exact ⟨hts, r, hr⟩
  · rintro ⟨hts, r, hr⟩
    obtain ⟨queries, q, hleads⟩ := r.leads_completion
    refine ⟨_, ⟨hts, ?_⟩, queries ++ [q], by simp, r, hr, hleads⟩
    exact List.forall_mem_map.mpr fun T _ => T.fits_sample

/-- The kinds of token that are expected are those that keep what was read viable. -/
theorem mem_expected_iff {ts : List Token} {r : Reading} (hts : ∀ t ∈ ts, t.Fits)
    (hr : Reading.initial.Leads ts r) (T : Terminal) :
    T ∈ r.stage.expected ↔ ∃ t, t.terminal = T ∧ IsViable (ts ++ [t]) := by
  simp only [isViable_iff, List.forall_mem_append, List.forall_mem_singleton,
    Reading.leads_append_iff, Reading.leads_singleton_iff]
  constructor
  · intro hT
    rw [← T.terminal_sample, ← Reading.isSome_step, Option.isSome_iff_exists] at hT
    obtain ⟨r', hr'⟩ := hT
    exact ⟨T.sample, T.terminal_sample, ⟨hts, T.fits_sample⟩, r', r, hr, hr'⟩
  · rintro ⟨t, rfl, -, r'', r', hr', hstep⟩
    obtain rfl : r = r' := Option.some.inj (hr.symm.trans hr')
    exact (Reading.isSome_step r t).mp (Option.isSome_iff_exists.mpr ⟨r'', hstep⟩)

end Conjunctive
