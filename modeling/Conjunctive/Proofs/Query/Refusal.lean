import Conjunctive.Proofs.Query.Reporting
import Conjunctive.Proofs.Query.Viable

/-!
# Where texts are refused

Every text is read up to the first place at which it is hopeless (`StopsAt`): what comes
before is laid out as tokens that begin a text of queries, and at the place there is no
token that goes on from there. A text is refused at this place, with just the kinds of
token that would go on, or because it ends there (`parse_error_stops`). Only the
report may be held back, as `Token.Overhung` says.
-/

namespace Conjunctive

open Segment

/-- A text is viable up to some place, and hopeless there: the segments before the place
lay out tokens that begin a text of queries, the kinds of token that go on from there
are those expected, and neither such a token nor ignored text comes next. -/
structure StopsAt (cs : List Char) (segs : List Segment) (rest : List Char)
    (expected : List Terminal) : Prop where
  text_eq : textOf segs ++ rest = cs
  laidOut : LaidOutBefore rest segs
  viable : IsViable (tokensOf segs)
  mem_expected_iff : ∀ T, T ∈ expected ↔ ∃ t, t.terminal = T ∧ IsViable (tokensOf segs ++ [t])
  not_ignored : Token.skip rest = rest
  not_prefix : ∀ t : Token, t.Fits → t.terminal ∈ expected → ¬ t.spelling <+: rest

/-- Tokens are read up to the first that is refused. -/
theorem Reading.exists_run (r : Reading) (ts : List (Token × Nat)) : ∃ taken,
    ts = taken ++ (r.run ts).2 ∧ r.Leads (taken.map Prod.fst) (r.run ts).1 ∧
      ∀ t ∈ (r.run ts).2.head?, (r.run ts).1.step t.1 = none := by
  induction ts generalizing r with
  | nil => exact ⟨[], rfl, leads_nil r, nofun⟩
  | cons t ts ih =>
      rw [run]
      cases hstep : r.step t.1 with
      | none => exact ⟨[], rfl, leads_nil r, fun u hu => by cases hu; exact hstep⟩
      | some r' =>
          obtain ⟨taken, hts, hleads, hnone⟩ := ih r'
          exact ⟨t :: taken, congrArg (t :: ·) hts, .cons hstep hleads, hnone⟩

/-- Where no token comes that is read, none comes of the kinds that are expected. -/
theorem Reading.not_prefix {r : Reading} {rest : List Char}
    (h : ∀ t rest', Token.next? rest = some (t, rest') → r.step t = none) {t : Token}
    (ht : t.Fits) (hterminal : t.terminal ∈ r.stage.expected) : ¬ t.spelling <+: rest := by
  rintro ⟨rest', rfl⟩
  obtain ⟨u, rest'', hnext, hkind, -⟩ := Token.exists_next ht rest'
  rw [← hkind, ← isSome_step, h u rest'' hnext] at hterminal
  cases hterminal

/-- Every text is read up to the first place at which it is hopeless. -/
theorem exists_stopsAt (cs : List Char) {r : Reading} {left : List (Token × Nat)}
    (h : Reading.initial.run (Token.scan cs).tokens = (r, left)) :
    ∃ segs rest, StopsAt cs segs rest r.stage.expected ∧
      (∀ t ∈ left.head?, rest ≠ [] ∧ rest.length = t.2) ∧
      (left = [] → rest = (Token.scan cs).stop) ∧
      (r.isComplete = true ↔ IsText (tokensOf segs)) := by
  obtain ⟨taken, htokens, hleads, hnone⟩ := Reading.initial.exists_run (Token.scan cs).tokens
  rw [h] at htokens hleads hnone
  obtain ⟨segs, rest, hsegs, htext, hsegtokens, hskip, hscan⟩ := Token.exists_layoutBefore htokens
  have hfits : ∀ t ∈ tokensOf segs, t.Fits := fun t ht => hsegs.fits_of_mem ht
  rw [← hsegtokens] at hleads
  have hrefused : ∀ t rest', Token.next? rest = some (t, rest') → r.step t = none := by
    intro t rest' hnext
    rw [← hskip] at hnext
    cases left with
    | nil =>
        rw [(Token.next?_eq_none_of_scan_eq hscan).1] at hnext
        cases hnext
    | cons u left =>
        obtain ⟨rest'', hu, -⟩ := Token.exists_of_scan_eq_cons hscan
        rw [hu] at hnext
        cases hnext
        exact hnone u rfl
  refine ⟨segs, rest, ⟨htext, hsegs, isViable_iff.mpr ⟨hfits, r, hleads⟩,
    mem_expected_iff hfits hleads, hskip, fun t => Reading.not_prefix hrefused⟩, ?_, ?_, ?_⟩
  · intro u hu
    obtain ⟨left, rfl⟩ := List.head?_eq_some_iff.mp hu
    obtain ⟨rest', hnext, hlength, -⟩ := Token.exists_of_scan_eq_cons hscan
    rw [hskip] at hnext hlength
    refine ⟨?_, hlength.symm⟩
    rintro rfl
    cases hnext
  · rintro rfl
    rw [(Token.next?_eq_none_of_scan_eq hscan).2, hskip]
  · rw [Reading.isComplete_iff, isText_iff, and_iff_right hfits]
    constructor
    · rintro ⟨hstage, hne⟩
      obtain ⟨queries, stage⟩ := r
      cases hstage
      exact ⟨queries, hne, hleads⟩
    · rintro ⟨queries, hne, hstart⟩
      obtain rfl : r = ⟨queries, .start⟩ := Option.some.inj (hleads.symm.trans hstart)
      exact ⟨rfl, hne⟩

/-- What is reported for a text that is hopeless at some place. -/
theorem StopsAt.located_eq {cs rest : List Char} {segs : List Segment} {live : List Terminal}
    (h : StopsAt cs segs rest live) (hne : rest ≠ []) :
    (¬ Token.Overhung (textOf segs) rest → ParseError.located cs rest.length live =
      ParseError.unexpectedAfter (textOf segs) live) ∧
      (Token.Overhung (textOf segs) rest → ParseError.located cs rest.length live =
        ParseError.unexpectedAfter (textOf segs ++ (Token.passed rest).dropLast) []) := by
  obtain ⟨c, cs', rfl⟩ := List.exists_cons_of_ne_nil hne
  rw [← h.text_eq]
  refine ⟨fun hover => ?_, fun hover => ?_⟩
  · exact ParseError.located_of_not_overhung h.not_ignored hne hover live
  · refine ParseError.located_of_overhung hover ?_ live
    rintro heq
    cases heq
    cases (Token.not_ignored_of_skip_eq h.not_ignored).1

namespace QueryForm

/-- A text is refused where it is hopeless. If it is viable up to its end, it is refused
only because it ends there too early, or for an integer. -/
theorem exists_stopsAt_parse (text : String) :
    ∃ segs rest live, StopsAt text.toList segs rest live ∧
      (rest ≠ [] → parse text = .error (.located text.toList rest.length live)) ∧
      (rest = [] → ¬ IsText (tokensOf segs) → parse text = .error (.unexpectedEnd live)) ∧
      (rest = [] → IsText (tokensOf segs) → ∀ e, parse text = .error e →
        ∃ digits, e = .overlongInteger digits) := by
  obtain ⟨⟨r, left⟩, hrun⟩ :
      ∃ result, Reading.initial.run (Token.scan text.toList).tokens = result := ⟨_, rfl⟩
  obtain ⟨segs, rest, hstops, hleft, hstop, hcomplete⟩ := exists_stopsAt text.toList hrun
  refine ⟨segs, rest, r.stage.expected, hstops, ?_⟩
  cases left with
  | cons u left =>
      obtain ⟨hne, hlength⟩ := hleft u rfl
      refine ⟨fun _ => ?_, fun h => absurd h hne, fun h => absurd h hne⟩
      rw [hlength]
      simp only [parse, hrun]
  | nil =>
      rw [hstop rfl]
      refine ⟨fun hne => ?_, fun hnil htext => ?_, fun hnil htext e he => ?_⟩
      · obtain ⟨c, stop, hs⟩ := List.exists_cons_of_ne_nil hne
        simp only [parse, hrun, hs]
      · rw [← hcomplete] at htext
        simp only [parse, hrun, hnil, htext, if_false, Bool.false_eq_true]
      · rw [← hcomplete] at htext
        simp only [parse, hrun, hnil, htext, if_true] at he
        split at he
        next digits _ =>
          cases he
          exact ⟨digits, rfl⟩
        next => cases he

/-- Where a text is hopeless decides how it is refused. There is always a first place at
which it is, perhaps its end. If it goes on there, it is refused with the kinds of token
that would go on and the place, unless the report is held back. If it ends there, it is
refused for that just if what comes before is no text of queries. -/
theorem parse_error_stops (text : String) :
    ∃ segs rest live, StopsAt text.toList segs rest live ∧
      (∀ line column expected,
        parse text = .error (.unexpectedCharacters line column expected) ↔ rest ≠ [] ∧
          (¬ Token.Overhung (textOf segs) rest →
            (line, column) = position (textOf segs) ∧ expected = live) ∧
          (Token.Overhung (textOf segs) rest →
            (line, column) = position (textOf segs ++ (Token.passed rest).dropLast) ∧
              expected = [])) ∧
      ∀ expected, parse text = .error (.unexpectedEnd expected) ↔
        rest = [] ∧ ¬ IsText (tokensOf segs) ∧ expected = live := by
  obtain ⟨segs, rest, live, hstops, hinside, hend, hwhole⟩ := exists_stopsAt_parse text
  refine ⟨segs, rest, live, hstops, ?_⟩
  by_cases hnil : rest = []
  · by_cases htext : IsText (tokensOf segs)
    · have hinteger := hwhole hnil htext
      refine ⟨fun line column expected => iff_of_false (fun h => ?_) fun h => h.1 hnil,
        fun expected => iff_of_false (fun h => ?_) fun h => h.2.1 htext⟩
      · obtain ⟨digits, h⟩ := hinteger _ h
        cases h
      · obtain ⟨digits, h⟩ := hinteger _ h
        cases h
    · rw [hend hnil htext]
      refine ⟨fun line column expected => iff_of_false nofun fun h => h.1 hnil, fun expected => ?_⟩
      simp [hnil, htext, eq_comm]
  · obtain ⟨hplain, hover⟩ := hstops.located_eq hnil
    rw [hinside hnil]
    by_cases hheld : Token.Overhung (textOf segs) rest
    · rw [hover hheld]
      refine ⟨fun line column expected => ?_, fun expected => iff_of_false nofun fun h => hnil h.1⟩
      simp [hnil, hheld, ParseError.unexpectedAfter, Prod.ext_iff, eq_comm, and_assoc]
    · rw [hplain hheld]
      refine ⟨fun line column expected => ?_, fun expected => iff_of_false nofun fun h => hnil h.1⟩
      simp [hnil, hheld, ParseError.unexpectedAfter, Prod.ext_iff, eq_comm, and_assoc]

/-- After a term, a comma or a closing parenthesis goes on. -/
theorem parse_error_stops_afterTerm :
    parse "A(x :- B(x)." = .error (.unexpectedCharacters 1 5 [.comma, .closing]) ∧
      ∃ segs rest, StopsAt "A(x :- B(x).".toList segs rest [.comma, .closing] ∧ rest ≠ [] ∧
        position (textOf segs) = (1, 5) := by
  have hparse : parse "A(x :- B(x)." = .error (.unexpectedCharacters 1 5 [.comma, .closing]) := by
    decide +kernel
  obtain ⟨segs, rest, live, hstops, hinside, -⟩ := parse_error_stops "A(x :- B(x)."
  obtain ⟨hne, hplain, hover⟩ := (hinside 1 5 _).mp hparse
  refine ⟨hparse, segs, rest, ?_⟩
  by_cases hheld : Token.Overhung (textOf segs) rest
  · exact absurd (hover hheld).2 (List.cons_ne_nil _ _)
  · obtain ⟨hposition, rfl⟩ := hplain hheld
    exact ⟨hstops, hne, hposition.symm⟩

/-- A percent sign in a string holds the report of an error after it back: what comes
before the place that is reported begins no text of queries. -/
theorem parse_error_afterPercentSign :
    parse "A('%')1." = .error (.unexpectedCharacters 1 8 []) ∧
      position "A('%')1".toList = (1, 8) ∧
      ¬ ∃ segs, LaidOut segs ∧ textOf segs = "A('%')1".toList ∧ IsViable (tokensOf segs) := by
  refine ⟨by decide +kernel, by decide, ?_⟩
  rintro ⟨segs, hsegs, htext, hviable⟩
  let segs' : List Segment := [.token (.relation ['A']), .token .opening,
    .token (.string Text.apostrophe ['%']), .token .closing, .token (.number ['1'])]
  have hsegs' : LaidOut segs' := by decide
  rw [tokensOf_eq_of_textOf_eq hsegs hsegs' (htext.trans rfl), isViable_iff] at hviable
  obtain ⟨-, r, hr⟩ := hviable
  cases hr

end QueryForm

end Conjunctive
