import Conjunctive.Proofs.Query.Cutting
import Conjunctive.Proofs.Query.Parse
import Conjunctive.Proofs.Query.Pieces

/-!
# Cutting and parsing agree

Cutting a text into queries does not parse it; still it cuts a text that can be
parsed into texts of its single queries. The pass that cuts goes along a layout
of the text (`Splitting.cutsAtDots`): it keeps tokens and white space, drops comments,
and ends a piece at each dot that is a token, there being no digit before it
where queries are read. So the pieces have the tokens of the single queries, and
are parsed as these.
-/

namespace Conjunctive

open Segment

/-! ### The pass over a layout -/

/-- Whether a segment has no line boundary inside. Only at its end may a comment have a
carriage return. -/
def Segment.OnOneLine : Segment → Prop
  | token (.string _ body) => ∀ c ∈ body, Text.isBoundary c = false
  | comment _ body => ∃ line : List Char, (body = line ∨ body = line ++ ['\r']) ∧
      ∀ c ∈ line, Text.isBoundary c = false
  | _ => True

namespace Splitting

variable {gathered piece rest : List Char} {before : Option Char}

/-- The characters that a pass keeps wherever they stand outside quotes and comments. -/
def isOrdinary (c : Char) : Bool := Text.inRanges [(0x28, 0x2D), (0x2F, 0x7E)] c

theorem follow_ordinary {c : Char} (hc : isOrdinary c = true) (cs : List Char) :
    follow gathered piece before .plain (c :: cs) =
      follow gathered (piece ++ [c]) (some c) .plain cs := by
  have hboundary : Text.isBoundary c = false :=
    Text.inRanges_eq_false_of_disjoint (by decide) hc
  have hothers :
      [Text.apostrophe, Text.quotationMark, '%', '#', '.'].all (!isOrdinary ·) = true := by
    decide
  have hne : ∀ d ∈ [Text.apostrophe, Text.quotationMark, '%', '#', '.'], c ≠ d := by
    rintro d hd rfl
    have hnot := List.all_eq_true.mp hothers c hd
    rw [hc] at hnot
    cases hnot
  simp only [List.forall_mem_cons] at hne
  rw [follow.eq_def]
  simp [hboundary, Token.isCommentSign, hne]

theorem follow_word {w : List Char} (hw : ∀ c ∈ w, isOrdinary c = true) (hne : w ≠ []) :
    follow gathered piece before .plain (w ++ rest) =
      follow gathered (piece ++ w) w.getLast? .plain rest := by
  induction w generalizing piece before with
  | nil => exact absurd rfl hne
  | cons c w ih =>
      rw [List.cons_append, follow_ordinary (hw c (by simp))]
      cases w with
      | nil => rfl
      | cons d w =>
          rw [ih (fun e he => hw e (List.mem_cons_of_mem c he)) (List.cons_ne_nil d w)]
          simp

theorem follow_quote {quote : Char} (h : Token.IsQuoteSign quote) (cs : List Char) :
    follow gathered piece before .plain (quote :: cs) =
      follow gathered (piece ++ [quote]) (some quote) (.quoted quote false) cs := by
  have hboundary : Text.isBoundary quote = false := by
    rcases h with rfl | rfl <;> decide
  unfold Token.IsQuoteSign at h
  rw [follow.eq_def]
  simp [hboundary, h]

theorem follow_quoted {c : Char} (hc : Text.isBoundary c = false) (quote : Char) (escaped : Bool)
    (cs : List Char) :
    follow gathered piece before (.quoted quote escaped) (c :: cs) =
      follow gathered (piece ++ [c]) (some c)
        (if escaped then .quoted quote false
        else if c = '\\' then .quoted quote true
        else if c = quote then .plain
        else .quoted quote false) cs := by
  rw [follow.eq_def]
  simp [hc]

/-- A string on one line is kept as it is. -/
theorem follow_string {quote : Char} (hquote : Token.IsQuoteSign quote) {body : List Char}
    (h : Token.StringBody quote body) (hline : ∀ c ∈ body, Text.isBoundary c = false) :
    follow gathered piece before (.quoted quote false) (body ++ quote :: rest) =
      follow gathered (piece ++ (body ++ [quote])) (some quote) .plain rest := by
  induction h generalizing piece before with
  | nil =>
      have hboundary : Text.isBoundary quote = false := by
        rcases hquote with rfl | rfl <;> decide
      rw [List.nil_append, follow_quoted hboundary, if_neg Bool.false_ne_true,
        if_neg hquote.ne_backslash, if_pos rfl]
      rfl
  | plain hc hc' _ ih =>
      rw [List.forall_mem_cons] at hline
      rw [List.cons_append, follow_quoted hline.1, if_neg Bool.false_ne_true, if_neg hc', if_neg hc,
        ih hline.2]
      simp
  | escaped _ _ ih =>
      rw [List.forall_mem_cons, List.forall_mem_cons] at hline
      rw [List.cons_append, List.cons_append, follow_quoted hline.1, if_neg Bool.false_ne_true,
        if_pos rfl, follow_quoted hline.2.1, if_pos rfl, ih hline.2.2]
      simp

theorem follow_dot (h : isDigit? before = false) (cs : List Char) :
    follow gathered piece before .plain ('.' :: cs) =
      extend gathered (piece ++ ['.']) :: follow [] [] (some '.') .plain cs := by
  rw [follow.eq_def]
  dsimp only
  rw [if_neg (by decide), if_neg (by decide), if_neg (by decide), if_pos (by simp [h])]

/-- A dot between digits is a point. -/
theorem follow_point {cs : List Char} (h : isDigit? before = true)
    (hcs : isDigit? cs.head? = true) :
    follow gathered piece before .plain ('.' :: cs) =
      follow gathered (piece ++ ['.']) (some '.') .plain cs := by
  rw [follow.eq_def]
  dsimp only
  rw [if_neg (by decide), if_neg (by decide), if_neg (by decide), if_neg (by simp [h, hcs])]

/-! ### Tokens -/

theorem isOrdinary_of_isWordPart {c : Char} (h : Token.isWordPart c = true) (hpoint : c ≠ '.') :
    isOrdinary c = true := by
  obtain ⟨h₁, h₂⟩ := Token.toNat_of_isWordPart h
  have hne : c.toNat ≠ 46 := by
    intro heq
    apply hpoint
    rw [← Char.ofNat_toNat c, heq]
  rw [isOrdinary, Text.inRanges_iff]
  by_cases hlow : c.toNat ≤ 45
  · exact ⟨(0x28, 0x2D), by simp, by simp only; omega, hlow⟩
  · exact ⟨(0x2F, 0x7E), by simp, by simp only; omega, by simp only; omega⟩

theorem isOrdinary_of_isDigit {c : Char} (h : c.isDigit = true) : isOrdinary c = true := by
  refine isOrdinary_of_isWordPart (Token.isWordPart_of_isDigit h) ?_
  rintro rfl
  cases h

theorem isDigit?_getLast? {ds : List Char} (h : Token.Digits ds) :
    isDigit? ds.getLast? = true := by
  rw [List.getLast?_eq_getLast_of_ne_nil h.1]
  exact Text.isDigit_of_ascii (h.2 _ (List.getLast_mem h.1))

theorem follow_decimal {ds : List Char} (h : Token.Decimal ds) :
    follow gathered piece before .plain (ds ++ rest) =
      follow gathered (piece ++ ds) ds.getLast? .plain rest := by
  rcases h with hds | ⟨whole, fraction, rfl, hwhole, hfraction⟩
  · exact follow_word (fun d hd => isOrdinary_of_isDigit (hds.2 d hd)) hds.1
  · have hhead : isDigit? (fraction ++ rest).head? = true := by
      obtain ⟨d, ds, rfl⟩ := List.exists_cons_of_ne_nil hfraction.1
      exact Text.isDigit_of_ascii (hfraction.2 d (by simp))
    have hlast : (whole ++ '.' :: fraction).getLast? = fraction.getLast? := by
      obtain ⟨d, ds, rfl⟩ := List.exists_cons_of_ne_nil hfraction.1
      simp [List.getLast?_cons]
    rw [List.append_assoc, List.cons_append,
      follow_word (fun d hd => isOrdinary_of_isDigit (hwhole.2 d hd)) hwhole.1,
      follow_point (isDigit?_getLast? hwhole) hhead,
      follow_word (fun d hd => isOrdinary_of_isDigit (hfraction.2 d hd)) hfraction.1, hlast]
    simp

/-- A token is kept as it is, unless it is a dot. -/
theorem follow_token {t : Token} (h : t.Fits) (hdot : t ≠ .dot)
    (hline : (Segment.token t).OnOneLine) :
    follow gathered piece before .plain (t.spelling ++ rest) =
      follow gathered (piece ++ t.spelling) t.spelling.getLast? .plain rest := by
  cases t with
  | relation name =>
      have hparts := h.isWordPart trivial
      obtain ⟨c, cs, rfl, hc, hcs⟩ := h
      refine follow_word (fun d hd => isOrdinary_of_isWordPart (hparts d hd) ?_)
        (List.cons_ne_nil c cs)
      rintro rfl
      rcases List.mem_cons.mp hd with rfl | hd
      · cases hc
      · cases hcs _ hd
  | «variable» name =>
      obtain ⟨letters, digits, rfl, hne, hletters, hdigits⟩ := h
      refine follow_word (fun d hd => ?_) (List.append_ne_nil_of_left_ne_nil hne digits)
      rcases List.mem_append.mp hd with hd | hd
      · refine isOrdinary_of_isWordPart (Token.isWordPart_of_isLower (hletters d hd)) ?_
        rintro rfl
        cases hletters _ hd
      · exact isOrdinary_of_isDigit (hdigits d hd)
  | number digits =>
      rcases h with hdecimal | ⟨ds, rfl, hdecimal⟩
      · exact follow_decimal hdecimal
      · have hlast : ('-' :: ds).getLast? = ds.getLast? := by
          obtain ⟨d, es, rfl, -⟩ := hdecimal.exists_cons
          simp
        change follow gathered piece before .plain ('-' :: (ds ++ rest)) =
          follow gathered (piece ++ '-' :: ds) ('-' :: ds).getLast? .plain rest
        rw [follow_ordinary (by decide), follow_decimal hdecimal, hlast]
        simp
  | string quote body =>
      obtain ⟨hquote, hbody⟩ := h
      have hlast : (Token.string quote body).spelling.getLast? = some quote :=
        List.getLast?_concat ..
      rw [hlast]
      change follow gathered piece before .plain (quote :: body ++ [quote] ++ rest) = _
      rw [List.append_assoc, List.cons_append, follow_quote hquote]
      change follow _ _ _ _ (body ++ quote :: rest) = _
      rw [follow_string hquote hbody hline, List.append_assoc]
      rfl
  | dot => exact absurd rfl hdot
  | _ => exact follow_word (List.all_eq_true.mp (by decide)) (by decide)

/-! ### White space and comments -/

theorem follow_space {c : Char} (h : Token.isSpace c = true) (cs : List Char) :
    follow gathered piece before .plain (c :: cs) =
      if Text.isBoundary c then follow (extend gathered piece) [] none .plain cs
      else follow gathered (piece ++ [c]) (some c) .plain cs := by
  simp only [Token.isSpace, Bool.or_eq_true, beq_iff_eq] at h
  rw [follow.eq_def]
  rcases h with (((rfl | rfl) | rfl) | rfl) | rfl <;> rfl

/-- From a comment on, only the rest of the text after it counts. -/
theorem follow_in_comment {line : List Char} (h : ∀ c ∈ line, Text.isBoundary c = false) :
    follow gathered piece before .comment (line ++ rest) =
      follow gathered piece none .comment rest := by
  induction line generalizing before with
  | nil => cases rest <;> rfl
  | cons c line ih =>
      rw [List.forall_mem_cons] at h
      rw [List.cons_append, follow.eq_def]
      dsimp only
      rw [if_neg (by rw [h.1]; exact Bool.false_ne_true), ih h.2]

theorem follow_comment {sign : Char} (hsign : Token.isCommentSign sign = true) {body : List Char}
    (hline : (Segment.comment sign body).OnOneLine)
    (hend : rest = [] ∨ rest.head? = some '\n') :
    follow gathered piece before .plain (sign :: body ++ rest) =
        follow gathered piece none .plain rest ∨
      follow gathered piece before .plain (sign :: body ++ rest) =
        follow (extend gathered piece) [] none .plain rest := by
  have hbegin : ∀ cs, follow gathered piece before .plain (sign :: cs) =
      follow gathered piece (some sign) .comment cs := by
    intro cs
    rw [Token.isCommentSign, Bool.or_eq_true, beq_iff_eq, beq_iff_eq] at hsign
    rcases hsign with rfl | rfl <;> rfl
  rw [List.cons_append, hbegin]
  obtain ⟨line, rfl | rfl, hbody⟩ := hline
  · refine Or.inl ?_
    rw [follow_in_comment hbody]
    rcases hend with rfl | hend
    · rfl
    · obtain ⟨cs, rfl⟩ := List.head?_eq_some_iff.mp hend
      rfl
  -- The carriage return is a line boundary, so the line ends before the end of the comment.
  · refine Or.inr ?_
    rw [List.append_assoc, follow_in_comment hbody]
    rfl

/-! ### A whole layout -/

/-- Cut tokens after each dot, some of the first part having been passed. -/
def cutAtDots (current : List Token) : List Token → List (List Token)
  | [] => if current = [] then [] else [current]
  | t :: ts =>
    if t = .dot then (current ++ [t]) :: cutAtDots [] ts else cutAtDots (current ++ [t]) ts

/-- The last character of a token that may come before a dot is no digit. -/
theorem isDigit?_of_follows {t : Token} (h : t.Follows .dot) :
    isDigit? t.spelling.getLast? = false := by
  rcases h.before_dot rfl with rfl | rfl <;> decide

/-- The pass cuts the tokens of some segments after each dot, and keeps nothing besides
them but white space. What was gathered and the piece at hand have the tokens that
were passed since the last dot. -/
def CutsAtDots (segs : List Segment) : Prop :=
  ∀ gathered piece before ts us, Gathered gathered ts → Spaced piece us →
    (∀ vs, tokensOf segs = .dot :: vs → isDigit? before = false) →
    List.Forall₂ Spaced (follow gathered piece before .plain (textOf segs))
      (cutAtDots (ts ++ us) (tokensOf segs))

theorem cutsAtDots_nil : CutsAtDots [] := by
  intro gathered piece before ts us hgathered hpiece _
  have hextend := hgathered.extend hpiece
  change List.Forall₂ Spaced (if extend gathered piece = [] then [] else [_])
    (if ts ++ us = [] then [] else [ts ++ us])
  by_cases hnil : ts ++ us = []
  · rw [if_pos hnil, if_pos (hextend.eq_nil hnil)]
    exact .nil
  · have hne : extend gathered piece ≠ [] := by
      intro heq
      have hspaced := hextend.spaced
      rw [heq] at hspaced
      exact hnil hspaced.eq_nil
    rw [if_neg hnil, if_neg hne]
    exact .cons hextend.spaced .nil

namespace CutsAtDots

variable {segs : List Segment}

/-- At the end of a line the piece at hand joins what was gathered. -/
theorem endOfLine (h : CutsAtDots segs) {ts us : List Token} (hgathered : Gathered gathered ts)
    (hpiece : Spaced piece us) :
    List.Forall₂ Spaced (follow (extend gathered piece) [] none .plain (textOf segs))
      (cutAtDots (ts ++ us) (tokensOf segs)) := by
  have hrest := h (extend gathered piece) [] none (ts ++ us) [] (hgathered.extend hpiece) .nil
    fun _ _ => rfl
  rwa [List.append_nil] at hrest

theorem dot (h : CutsAtDots segs) : CutsAtDots (.token .dot :: segs) := by
  intro gathered piece before ts us hgathered hpiece hbefore
  have hfits : Token.Fits .dot := trivial
  have hend := hgathered.extend (hpiece.append (Spaced.token hfits))
  rw [← List.append_assoc] at hend
  change List.Forall₂ Spaced (follow gathered piece before .plain ('.' :: textOf segs)) _
  rw [follow_dot (hbefore _ rfl), tokensOf_token, cutAtDots, if_pos rfl]
  refine .cons hend.spaced (h [] [] (some '.') [] [] ⟨.nil, fun _ => rfl⟩ .nil fun _ _ => ?_)
  decide

theorem token (h : CutsAtDots segs) {t : Token} (hfits : t.Fits) (hdot : t ≠ .dot)
    (hline : (Segment.token t).OnOneLine)
    (hnext : ∀ vs, tokensOf segs = .dot :: vs → isDigit? t.spelling.getLast? = false) :
    CutsAtDots (.token t :: segs) := by
  intro gathered piece before ts us hgathered hpiece _
  have hrest := h gathered (piece ++ t.spelling) t.spelling.getLast? ts (us ++ [t]) hgathered
    (hpiece.append (Spaced.token hfits)) hnext
  rw [← List.append_assoc] at hrest
  change List.Forall₂ Spaced (follow gathered piece before .plain (t.spelling ++ textOf segs)) _
  rwa [follow_token hfits hdot hline, tokensOf_token, cutAtDots, if_neg hdot]

theorem space (h : CutsAtDots segs) {c : Char} (hc : Token.isSpace c = true) :
    CutsAtDots (.space c :: segs) := by
  intro gathered piece before ts us hgathered hpiece _
  change List.Forall₂ Spaced (follow gathered piece before .plain (c :: textOf segs)) _
  rw [follow_space hc, tokensOf_space]
  split_ifs
  · exact h.endOfLine hgathered hpiece
  · have hrest := h gathered (piece ++ [c]) (some c) ts (us ++ []) hgathered
      (hpiece.append (Spaced.space hc)) fun _ _ => isDigit_of_isSpace hc
    rwa [List.append_nil] at hrest

theorem comment (h : CutsAtDots segs) {sign : Char} {body : List Char}
    (hfits : (Segment.comment sign body).FitsBefore (textOf segs))
    (hline : (Segment.comment sign body).OnOneLine) : CutsAtDots (.comment sign body :: segs) := by
  intro gathered piece before ts us hgathered hpiece _
  obtain ⟨hsign, -, hend⟩ := hfits
  change List.Forall₂ Spaced (follow gathered piece before .plain (sign :: body ++ textOf segs)) _
  rw [tokensOf_comment]
  rcases follow_comment hsign hline hend with heq | heq
  · rw [heq]
    exact h gathered piece none ts us hgathered hpiece fun _ _ => rfl
  · rw [heq]
    exact h.endOfLine hgathered hpiece

end CutsAtDots

/-- The pass cuts a layout after each dot that is a token, if its tokens are such as are
read one after the other. -/
theorem cutsAtDots {segs : List Segment} (hsegs : LaidOut segs) (hlines : ∀ s ∈ segs, s.OnOneLine)
    (hchain : (tokensOf segs).IsChain Token.Follows) : CutsAtDots segs := by
  induction segs with
  | nil => exact cutsAtDots_nil
  | cons s segs ih =>
      obtain ⟨hs, hlaid⟩ := hsegs
      obtain ⟨hline, hlines'⟩ := List.forall_mem_cons.mp hlines
      cases s with
      | token t =>
          have hrest := ih hlaid hlines' hchain.of_cons
          by_cases hdot : t = .dot
          · rw [hdot]
            exact hrest.dot
          · refine hrest.token hs.fits hdot hline fun vs hvs => ?_
            rw [tokensOf_token, hvs] at hchain
            exact isDigit?_of_follows (List.isChain_cons_cons.mp hchain).1
      | space c => exact (ih hlaid hlines' hchain).space hs
      | comment sign body => exact (ih hlaid hlines' hchain).comment hs hline

/-! ### The tokens of queries -/

theorem cutAtDots_append {ts : List Token} (h : .dot ∉ ts) (current us : List Token) :
    cutAtDots current (ts ++ .dot :: us) = (current ++ ts ++ [.dot]) :: cutAtDots [] us := by
  induction ts generalizing current with
  | nil => simp [cutAtDots]
  | cons t ts ih =>
      rw [List.mem_cons, not_or] at h
      rw [List.cons_append, cutAtDots, if_neg (Ne.symm h.1), ih h.2]
      simp

theorem dot_notMem_atom (a : AtomTree) : .dot ∉ a.tokens := by
  simp only [AtomTree.tokens, List.cons_append, List.mem_cons, List.mem_append, reduceCtorEq,
    false_or, List.not_mem_nil, or_false]
  intro hdot
  obtain ⟨p, hp, hdot⟩ := exists_of_mem_separated (by decide) hdot
  obtain ⟨x, -, rfl⟩ := List.mem_map.mp hp
  cases x <;> cases List.mem_singleton.mp hdot

/-- Cut after each dot, the tokens of queries are those of the single queries. -/
theorem cutAtDots_programTokens (qs : List QueryTree) :
    cutAtDots [] (programTokens qs) = qs.map QueryTree.tokens := by
  induction qs with
  | nil => rfl
  | cons q qs ih =>
      have hdot : .dot ∉ q.head.tokens ++ .arrow :: separated (q.body.map AtomTree.tokens) := by
        rw [List.mem_append, List.mem_cons]
        rintro (h | h | h)
        · exact dot_notMem_atom q.head h
        · cases h
        · obtain ⟨p, hp, hdot⟩ := exists_of_mem_separated (by decide) h
          obtain ⟨a, -, rfl⟩ := List.mem_map.mp hp
          exact dot_notMem_atom a hdot
      have hq : programTokens (q :: qs) =
          (q.head.tokens ++ .arrow :: separated (q.body.map AtomTree.tokens)) ++
            .dot :: programTokens qs := by
        rw [programTokens, List.flatMap_cons, QueryTree.tokens, List.append_assoc]
        rfl
      rw [hq, cutAtDots_append hdot, ih]
      rfl

end Splitting

namespace QueryForm

/-- Tokens of a query with white space between them are parsed as this query. -/
theorem parseOne_of_spaced {cs : List Char} {q : QueryTree} (h : Spaced cs q.tokens)
    (hshort : ShortIntegers q.tokens) : parseOne (String.ofList cs) = .ok q.form := by
  obtain ⟨segs, hloose, htext, htokens⟩ := h
  have hleads : Reading.initial.Leads q.tokens ⟨[q.form], .start⟩ := Reading.leads_query q
  have hchain : q.tokens.IsChain Token.Follows := hleads.isChain
  have hq : programTokens [q] = q.tokens := List.flatMap_singleton ..
  have hparse : parse (String.ofList cs) = .ok [q.form] := by
    refine parse_eq_ok_iff.mpr ⟨[q], ⟨List.cons_ne_nil q [], ⟨segs, ?_, ?_, ?_⟩, ?_⟩, rfl⟩
    · exact laidOut_of_loose hloose (htokens ▸ hchain)
    · rw [htext, String.toList_ofList]
    · rw [htokens, hq]
    · rwa [hq]
  rw [parseOne, hparse]

/-- Cutting a text into queries agrees with parsing it: if no string and no comment goes
over the end of a line, a text that is parsed is cut into as many texts, and each of
these is parsed as the query in its place. -/
theorem parseOne_splitQueries {text : String} {queries : List (QueryForm Term)}
    (hparse : parse text = .ok queries) {segs : List Segment} (hsegs : LaidOut segs)
    (htext : textOf segs = text.toList) (hlines : ∀ s ∈ segs, s.OnOneLine) :
    List.Forall₂ (fun piece q => parseOne piece = .ok q) (splitQueries text) queries := by
  obtain ⟨trees, ⟨-, ⟨segs', hsegs', htext', htokens'⟩, hshort⟩, rfl⟩ := parse_eq_ok_iff.mp hparse
  have htokens : tokensOf segs = programTokens trees :=
    (tokensOf_eq_of_textOf_eq hsegs hsegs' (htext.trans htext'.symm)).trans htokens'
  have hchain : (programTokens trees).IsChain Token.Follows := (Reading.leads_program trees).isChain
  have hpieces := Splitting.cutsAtDots hsegs hlines (htokens ▸ hchain) [] [] none [] []
    ⟨.nil, fun _ => rfl⟩ .nil fun _ _ => rfl
  rw [htext, Splitting.follow_eq_gather, htokens, List.append_nil,
    Splitting.cutAtDots_programTokens, List.forall₂_map_right_iff] at hpieces
  have hshorts : ∀ q ∈ trees, ShortIntegers q.tokens :=
    fun q hq digits hdigits => hshort digits (List.mem_flatMap.mpr ⟨q, hq, hdigits⟩)
  have hboth := (List.forall₂_and_left _ _).mpr ⟨hshorts, hpieces.flip⟩
  rw [splitQueries, List.forall₂_map_left_iff, List.forall₂_map_right_iff]
  exact (hboth.imp fun _ _ h => parseOne_of_spaced h.2 h.1).flip

/-- A text of two queries, the second on two lines and with a dot in a string, and a
comment that has an apostrophe and ends with a carriage return. -/
def quotesAndDots : List Segment :=
  [.token (.relation ['A']), .token .opening, .token (.variable ['x']), .token .closing,
    .space ' ', .token .arrow, .space ' ', .token (.relation ['R']), .token .opening,
    .token (.variable ['x']), .token .comma, .token (.number ['-', '7']), .token .closing,
    .token .dot, .comment '%' [' ', Text.apostrophe, '.', '\r'], .space '\n',
    .token (.relation ['B']), .token .opening, .token .closing, .token .arrow, .space '\n',
    .space ' ', .token (.relation ['S']), .token .opening,
    .token (.string Text.quotationMark [' ', Text.apostrophe, '.']), .token .closing,
    .token .dot]

theorem parseOne_splitQueries_quotesAndDots :
    List.Forall₂ (fun piece q => parseOne piece = .ok q)
      (splitQueries "A(x) :- R(x,-7).% '.\r\nB():-\n S(\" '.\").")
      [⟨⟨"A", [.variable "x"]⟩, [⟨"R", [.variable "x", .constant (.int (-7))]⟩]⟩,
        ⟨⟨"B", []⟩, [⟨"S", [.constant (.text " '.")]⟩]⟩] := by
  have hlaid : LaidOut quotesAndDots := by decide
  refine parseOne_splitQueries (by decide +kernel) hlaid (by decide +kernel) ?_
  have hchars : ∀ c ∈ [' ', Text.apostrophe, '.'], Text.isBoundary c = false := by
    simp only [List.forall_mem_cons, List.not_mem_nil, false_implies, implies_true, and_true]
    decide
  have hcomment : (Segment.comment '%' [' ', Text.apostrophe, '.', '\r']).OnOneLine :=
    ⟨[' ', Text.apostrophe, '.'], Or.inr rfl, hchars⟩
  have hstring :
      (Segment.token (.string Text.quotationMark [' ', Text.apostrophe, '.'])).OnOneLine :=
    hchars
  simp only [quotesAndDots, List.forall_mem_cons, hcomment, hstring]
  simp [Segment.OnOneLine]

end QueryForm

end Conjunctive
