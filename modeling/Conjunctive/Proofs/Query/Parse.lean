import Conjunctive.Proofs.Query.Grammar
import Conjunctive.Proofs.Query.Layout

/-!
# What is parsed

A text derives syntax trees if it is laid out as their tokens, and no integer
among these has too many digits (`Derives`). A text is parsed if it derives
trees, of which there is only one sequence, and what is read are the forms of
these. So what is read depends on the tokens alone, not on the white space and
the comments between them.
-/

namespace Conjunctive

open Segment

namespace Reading

/-- The tokens up to the first that is refused are all of them if each is taken. -/
theorem run_eq_nil_iff {r r' : Reading} {ts : List (Token × Nat)} :
    r.run ts = (r', []) ↔ r.Leads (ts.map Prod.fst) r' := by
  induction ts generalizing r with
  | nil =>
      rw [run, List.map_nil, Leads, List.foldlM_nil, Prod.mk.injEq, and_iff_left rfl]
      exact Option.some_inj.symm
  | cons t ts ih =>
      rw [run, List.map_cons, Leads, List.foldlM_cons]
      cases r.step t.1 with
      | none => simp
      | some r'' => exact ih

theorem isComplete_iff {r : Reading} :
    r.isComplete = true ↔ r.stage = .start ∧ r.queries ≠ [] := by
  obtain ⟨queries, stage⟩ := r
  cases stage <;> simp [isComplete]

end Reading

/-- No integer among some tokens has too many digits. -/
def ShortIntegers (ts : List Token) : Prop :=
  ∀ digits, .number digits ∈ ts → '.' ∉ digits →
    (digits.filter Char.isDigit).length ≤ Literal.digitLimit

theorem overlong?_eq_none_iff {t : Token} : t.overlong? = none ↔
    ∀ digits, .number digits = t → '.' ∉ digits →
      (digits.filter Char.isDigit).length ≤ Literal.digitLimit := by
  cases t with
  | number digits =>
      rw [Token.overlong?]
      constructor
      · rintro h ds heq hpoint
        cases heq
        by_contra hlong
        simp [hpoint, hlong] at h
      · intro h
        have hds := h digits rfl
        by_cases hpoint : '.' ∈ digits
        · simp [hpoint]
        · simp [hds hpoint]
  | _ =>
      refine iff_of_true rfl ?_
      intro digits h
      cases h

theorem shortIntegers_iff {ts : List (Token × Nat)} :
    ShortIntegers (ts.map Prod.fst) ↔ ts.findSome? (fun t => t.1.overlong?) = none := by
  simp only [List.findSome?_eq_none_iff, overlong?_eq_none_iff, ShortIntegers, List.mem_map]
  constructor
  · rintro h t ht digits heq
    exact h digits ⟨t, ht, heq.symm⟩
  · rintro h digits ⟨t, ht, heq⟩
    exact h t ht digits heq.symm

namespace QueryForm

/-- A text is laid out as the tokens of some trees, none of whose integers has too many
digits. -/
structure Derives (text : String) (trees : List QueryTree) : Prop where
  ne_nil : trees ≠ []
  layout : ∃ segs, LaidOut segs ∧ textOf segs = text.toList ∧ tokensOf segs = programTokens trees
  shortIntegers : ShortIntegers (programTokens trees)

/-- A text is parsed if it is cut into tokens to its end, and these are read as
complete queries. -/
theorem parse_eq_ok_iff_leads {text : String} {queries : List (QueryForm Term)} :
    parse text = .ok queries ↔ (Token.scan text.toList).stop = [] ∧
      Reading.initial.Leads ((Token.scan text.toList).tokens.map Prod.fst) ⟨queries, .start⟩ ∧
      queries ≠ [] ∧ ShortIntegers ((Token.scan text.toList).tokens.map Prod.fst) := by
  rw [← Reading.run_eq_nil_iff, shortIntegers_iff]
  dsimp only [parse]
  generalize Token.scan text.toList = scanned
  generalize Reading.initial.run scanned.tokens = result
  obtain ⟨tokens, stop⟩ := scanned
  obtain ⟨⟨found, stage⟩, left⟩ := result
  constructor
  · intro h
    dsimp only at h
    split at h
    · cases h
    · cases h
    · split_ifs at h with hcomplete
      split at h
      · cases h
      · cases h
        obtain ⟨hstage, hne⟩ := Reading.isComplete_iff.mp hcomplete
        cases hstage
        exact ⟨rfl, rfl, hne, ‹_›⟩
  · rintro ⟨hstop, hrun, hne, hshort⟩
    cases hstop
    cases hrun
    have hcomplete : Reading.isComplete ⟨queries, .start⟩ = true :=
      Reading.isComplete_iff.mpr ⟨rfl, hne⟩
    simp only [hcomplete, if_true, hshort]

/-- The tokens of a text do not depend on its layout. -/
theorem tokensOf_eq_of_textOf_eq {segs segs' : List Segment} (h : LaidOut segs)
    (h' : LaidOut segs') (htext : textOf segs = textOf segs') : tokensOf segs = tokensOf segs' := by
  rw [← (Token.scan_textOf h).1, htext, (Token.scan_textOf h').1]

theorem Derives.unique {text : String} {trees trees' : List QueryTree} (h : Derives text trees)
    (h' : Derives text trees') : trees = trees' := by
  obtain ⟨segs, hsegs, htext, htokens⟩ := h.layout
  obtain ⟨segs', hsegs', htext', htokens'⟩ := h'.layout
  apply programTokens_inj
  rw [← htokens, ← htokens']
  exact tokensOf_eq_of_textOf_eq hsegs hsegs' (htext.trans htext'.symm)

/-- A text is parsed if it derives trees, and their forms are read. -/
theorem parse_eq_ok_iff {text : String} {queries : List (QueryForm Term)} :
    parse text = .ok queries ↔
      ∃ trees, Derives text trees ∧ trees.map QueryTree.form = queries := by
  rw [parse_eq_ok_iff_leads, Reading.leads_start_iff]
  constructor
  · rintro ⟨hstop, ⟨trees, htokens, hqueries⟩, hne, hshort⟩
    refine ⟨trees, ⟨?_, ?_, htokens ▸ hshort⟩, hqueries⟩
    · rintro rfl
      exact hne hqueries.symm
    · obtain ⟨segs, hsegs, htext, hsegtokens⟩ := Token.exists_layout hstop
      exact ⟨segs, hsegs, htext, hsegtokens.trans htokens.symm⟩
  · rintro ⟨trees, ⟨hne, ⟨segs, hsegs, htext, htokens⟩, hshort⟩, rfl⟩
    obtain ⟨hscan, hstop⟩ := Token.scan_textOf hsegs
    rw [← htext, hscan, htokens]
    exact ⟨hstop, ⟨trees, rfl, rfl⟩, by simpa using hne, hshort⟩

/-- Texts with the same tokens derive the same trees. -/
theorem derives_congr {text text' : String} {segs segs' : List Segment} (h : LaidOut segs)
    (htext : textOf segs = text.toList) (h' : LaidOut segs') (htext' : textOf segs' = text'.toList)
    (htokens : tokensOf segs = tokensOf segs') {trees : List QueryTree}
    (hderives : Derives text trees) : Derives text' trees := by
  obtain ⟨hne, ⟨segs'', h'', htext'', htokens''⟩, hshort⟩ := hderives
  refine ⟨hne, ⟨segs', h', htext', ?_⟩, hshort⟩
  rw [← htokens, ← htokens'']
  exact tokensOf_eq_of_textOf_eq h h'' (htext.trans htext''.symm)

/-- What is parsed is what the grammar derives. A text is read as the forms of the
trees that it derives, there being only one sequence of these; the tokens alone
decide, not the white space and the comments between them; and a text that
derives no trees is refused. -/
theorem parse_accepts_grammar (text : String) :
    (∀ queries, parse text = .ok queries ↔
      ∃ trees, Derives text trees ∧ trees.map QueryTree.form = queries) ∧
    (∀ trees trees', Derives text trees → Derives text trees' → trees = trees') ∧
    (∀ text' segs segs', LaidOut segs → textOf segs = text.toList → LaidOut segs' →
      textOf segs' = text'.toList → tokensOf segs = tokensOf segs' →
      ∀ queries, parse text = .ok queries ↔ parse text' = .ok queries) ∧
    ((¬ ∃ trees, Derives text trees) → ∃ e, parse text = .error e) := by
  refine ⟨fun queries => parse_eq_ok_iff, fun _ _ h h' => h.unique h', ?_, ?_⟩
  · intro text' segs segs' h htext h' htext' htokens queries
    rw [parse_eq_ok_iff, parse_eq_ok_iff]
    refine exists_congr fun trees => and_congr_left' ⟨?_, ?_⟩
    · exact derives_congr h htext h' htext' htokens
    · exact derives_congr h' htext' h htext htokens.symm
  · intro hnone
    cases hparse : parse text with
    | error e => exact ⟨e, rfl⟩
    | ok queries =>
        obtain ⟨trees, htrees, -⟩ := parse_eq_ok_iff.mp hparse
        exact absurd ⟨trees, htrees⟩ hnone

example : parse "A(x, 'it') :- % none\n ." =
    .ok [⟨⟨"A", [.variable "x", .constant (.text "it")]⟩, []⟩] := by cbv

end QueryForm

end Conjunctive
