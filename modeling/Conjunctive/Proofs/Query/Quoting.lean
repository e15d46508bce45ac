import Conjunctive.Proofs.Query.Gaps
import Conjunctive.Proofs.Query.Parse

/-!
# Texts in quotes

Decoding the body of a string replaces twice: first each backslash with a quote
sign, then each pair of backslashes. In the body of a token this comes to one
pass that reads backslashes two characters at a time (`decode_eq_unescape`): a
pair of backslashes is never followed by a bare quote sign, so the first
replacement cannot take its second backslash. The pass undoes `escape`.

A string may stand wherever some term may: it ends at its closing quote sign, and no
token in front of it goes on over its opening one (`LaidOut.replace`). So a text that
is written with its backslashes and quote signs escaped fills the gap that the term
leaves, and is read as that text (`parse_escape_fills_gap`).
-/

namespace Conjunctive

open Segment

namespace Token

/-- A text as it is written between quote signs: each backslash and each quote sign
has a backslash in front. -/
def escape (quote : Char) (cs : List Char) : List Char :=
  cs.flatMap fun c => if c = '\\' ∨ c = quote then ['\\', c] else [c]

/-- Read a body from left to right: a backslash goes with the next character, and is
dropped if this is a backslash or the quote sign. -/
def unescape (quote : Char) : List Char → List Char
  | [] => []
  | [c] => [c]
  | c :: d :: cs =>
    if c = '\\' then
      if d = '\\' ∨ d = quote then d :: unescape quote cs else c :: d :: unescape quote cs
    else c :: unescape quote (d :: cs)

variable {quote c d : Char} {cs body : List Char}

/-! ### Two replacements and one pass -/

theorem unescape_plain (hc : c ≠ '\\') (cs : List Char) :
    unescape quote (c :: cs) = c :: unescape quote cs := by
  cases cs with
  | nil => rfl
  | cons d cs => rw [unescape, if_neg hc]

theorem unescape_escaped (quote d : Char) (cs : List Char) :
    unescape quote ('\\' :: d :: cs) =
      if d = '\\' ∨ d = quote then d :: unescape quote cs
      else '\\' :: d :: unescape quote cs := by
  rw [unescape, if_pos rfl]

theorem collapse_plain (hd : d ≠ '\\') (c : Char) (cs : List Char) :
    collapse c (d :: cs) = d :: collapse c cs := by
  cases cs with
  | nil => rfl
  | cons e cs => rw [collapse, if_neg fun h => hd h.1]

theorem collapse_pair (c : Char) (cs : List Char) :
    collapse c ('\\' :: c :: cs) = c :: collapse c cs := by
  rw [collapse, if_pos ⟨rfl, rfl⟩]

/-- A backslash stays where the character is not next. -/
theorem collapse_backslash (h : ∀ d ∈ cs.head?, d ≠ c) :
    collapse c ('\\' :: cs) = '\\' :: collapse c cs := by
  cases cs with
  | nil => rfl
  | cons d cs => rw [collapse, if_neg fun hd => h d rfl hd.2]

/-- A body does not begin with the quote sign. -/
theorem StringBody.head?_ne (h : StringBody quote body) (hquote : quote ≠ '\\') :
    ∀ c ∈ body.head?, c ≠ quote := by
  intro c hc
  cases h with
  | nil => cases hc
  | plain hne _ _ =>
      cases hc
      exact hne
  | escaped _ _ =>
      cases hc
      exact hquote.symm

/-- What an escaped character gives when quote signs are replaced, and then backslashes. -/
theorem collapse_collapse_escaped (hquote : quote ≠ '\\') (h : StringBody quote cs) (d : Char) :
    collapse '\\' (collapse quote ('\\' :: d :: cs)) =
      if d = '\\' ∨ d = quote then d :: collapse '\\' (collapse quote cs)
      else '\\' :: d :: collapse '\\' (collapse quote cs) := by
  by_cases hd : d = quote
  · subst hd
    rw [collapse_pair, collapse_plain hquote, if_pos (Or.inr rfl)]
  · have hkeep : collapse quote ('\\' :: d :: cs) = '\\' :: collapse quote (d :: cs) :=
      collapse_backslash (by simpa using hd)
    rw [hkeep]
    by_cases hbackslash : d = '\\'
    · -- The body goes on with no quote sign, so that both backslashes are still there.
      subst hbackslash
      rw [collapse_backslash (h.head?_ne hquote), collapse_pair, if_pos (Or.inl rfl)]
    · rw [collapse_plain hbackslash, collapse_backslash (by simpa using hbackslash),
        collapse_plain hbackslash, if_neg (not_or.mpr ⟨hbackslash, hd⟩)]

theorem collapse_collapse (hquote : quote ≠ '\\') (h : StringBody quote body) :
    collapse '\\' (collapse quote body) = unescape quote body := by
  induction h with
  | nil => rfl
  | plain _ hc _ ih => rw [collapse_plain hc, collapse_plain hc, unescape_plain hc, ih]
  | escaped _ hcs ih => rw [collapse_collapse_escaped hquote hcs, unescape_escaped, ih]

/-- The two replacements in the body of a string come to one pass. -/
theorem decode_eq_unescape (h : (string quote body).Fits) :
    decode quote body = String.ofList (unescape quote body) := by
  obtain ⟨hquote, hbody⟩ := h
  rw [decode, collapse_collapse hquote.ne_backslash hbody]

/-! ### Escaped texts -/

theorem escape_cons (quote c : Char) (cs : List Char) :
    escape quote (c :: cs) =
      (if c = '\\' ∨ c = quote then ['\\', c] else [c]) ++ escape quote cs :=
  List.flatMap_cons

theorem IsQuoteSign.ne_newline (h : IsQuoteSign quote) : quote ≠ '\n' := by
  rcases h with rfl | rfl <;> decide

/-- An escaped text may stand between quote signs. -/
theorem fits_escape (hquote : IsQuoteSign quote) (cs : List Char) :
    (string quote (escape quote cs)).Fits := by
  refine ⟨hquote, ?_⟩
  induction cs with
  | nil => exact .nil
  | cons c cs ih =>
      rw [escape_cons]
      split_ifs with hc
      · refine .escaped ?_ ih
        rcases hc with rfl | rfl
        · decide
        · exact hquote.ne_newline
      · rw [not_or] at hc
        exact .plain hc.2 hc.1 ih

theorem unescape_escape (quote : Char) (cs : List Char) :
    unescape quote (escape quote cs) = cs := by
  induction cs with
  | nil => rfl
  | cons c cs ih =>
      rw [escape_cons]
      split_ifs with hc
      · change unescape quote ('\\' :: c :: escape quote cs) = _
        rw [unescape_escaped, if_pos hc, ih]
      · change unescape quote (c :: escape quote cs) = _
        rw [unescape_plain (not_or.mp hc).1, ih]

theorem decode_escape (hquote : IsQuoteSign quote) (s : String) :
    decode quote (escape quote s.toList) = s := by
  rw [decode_eq_unescape (fits_escape hquote s.toList), unescape_escape, String.ofList_toList]

end Token

/-! ### A string in place of a token -/

/-- No name and no number goes on over a quote sign, so what follows a quote sign makes
no difference to the tokens in front of it. -/
theorem Token.Longest.before_quote {t : Token} {cs rest : List Char} (h : t.Longest (cs ++ rest))
    {quote : Char} (hquote : Token.IsQuoteSign quote) (rest' : List Char) :
    t.Longest (cs ++ quote :: rest') := by
  by_cases hword : t.IsWord
  · refine ⟨h.fits, fun u hu hterminal hprefix => h.length_le u hu hterminal ?_⟩
    have huword := hword.of_terminal_eq hterminal
    have hnotMem : quote ∉ u.spelling := by
      intro hmem
      have hpart := hu.isWordPart huword quote hmem
      rcases hquote with rfl | rfl <;> cases hpart
    rw [← List.append_assoc] at hprefix ⊢
    exact (prefix_of_prefix_append_cons hnotMem hprefix).trans (List.prefix_append _ _)
  · exact h.fits.longest_of_not_isWord hword _

namespace Segment

theorem FitsBefore.before_quote {s : Segment} {t : Token} {cs rest : List Char}
    (h : s.FitsBefore (cs ++ (t.spelling ++ rest))) (ht : t.Fits) {quote : Char}
    (hquote : Token.IsQuoteSign quote) (rest' : List Char) :
    s.FitsBefore (cs ++ quote :: rest') := by
  cases s with
  | token u => exact Token.Longest.before_quote h hquote rest'
  | space c => exact h
  | comment sign body =>
      obtain ⟨hsign, hbody, hrest⟩ := h
      refine ⟨hsign, hbody, Or.inr ?_⟩
      cases cs with
      | nil =>
          -- The comment would end at the token, which begins with no newline.
          obtain ⟨c, ds, hspelling, hspace, -⟩ := ht.exists_cons
          rw [List.nil_append, hspelling] at hrest
          rcases hrest with hrest | hrest <;> cases hrest
          cases hspace
      | cons c cs => simpa using hrest

theorem LaidOut.of_append {segs segs' : List Segment} (h : LaidOut (segs ++ segs')) :
    LaidOut segs' := by
  induction segs with
  | nil => exact h
  | cons s segs ih => exact ih h.2

/-- A token of a layout may be replaced by a string. -/
theorem LaidOut.replace {before after : List Segment} {t : Token} {quote : Char}
    {body : List Char} (h : LaidOut (before ++ .token t :: after))
    (hstring : (Token.string quote body).Fits) :
    LaidOut (before ++ .token (.string quote body) :: after) := by
  have ht : t.Fits := h.of_append.1.fits
  induction before with
  | nil => exact ⟨hstring.longest_of_not_isWord id _, h.2⟩
  | cons s before ih =>
      obtain ⟨hs, hrest⟩ := h
      refine ⟨?_, ih hrest⟩
      change s.FitsBefore (textOf (before ++ _)) at hs
      change s.FitsBefore (textOf (before ++ _))
      rw [textOf_append] at hs ⊢
      exact hs.before_quote ht hstring.1 _

end Segment

/-! ### Strings in queries -/

namespace QueryForm

/-- Any string that is written in place of a term fills the gap in which this stands. -/
theorem exists_gap_of_parse {before after : List Segment} {t : Token} {x : Term}
    {queries : List (QueryForm Term)} (hlaid : LaidOut (before ++ .token t :: after))
    (hterm : t.term? = some x)
    (hparse : parse (String.ofList (textOf (before ++ .token t :: after))) = .ok queries) :
    ∃ gap : ProgramGap, gap.fill x = queries ∧
      ∀ quote body, (Token.string quote body).Fits →
        parse (String.ofList (textOf (before ++ .token (.string quote body) :: after))) =
          .ok (gap.fill (.constant (.text (Token.decode quote body)))) := by
  obtain ⟨tree, rfl, rfl⟩ := TermTree.term?_eq_some_iff.mp hterm
  obtain ⟨trees, hderives, rfl⟩ := parse_eq_ok_iff.mp hparse
  obtain ⟨segs, hsegs, htext, htokens⟩ := hderives.layout
  rw [String.toList_ofList] at htext
  have hprogram : programTokens trees = tokensOf before ++ tree.token :: tokensOf after := by
    rw [← htokens, tokensOf_eq_of_textOf_eq hsegs hlaid htext, tokensOf_append, tokensOf_token]
  obtain ⟨gap, hgap, hsurround⟩ := exists_gap hprogram
  refine ⟨gap, hgap, fun quote body hstring => ?_⟩
  obtain ⟨trees', htokens', hform⟩ := hsurround (.string quote body)
  refine parse_eq_ok_iff.mpr ⟨trees', ⟨?_, ⟨_, hlaid.replace hstring, ?_, ?_⟩, ?_⟩, hform⟩
  · rintro rfl
    exact List.append_ne_nil_of_right_ne_nil _ (List.cons_ne_nil _ _) htokens'.symm
  · rw [String.toList_ofList]
  · rw [htokens', tokensOf_append, tokensOf_token]
    rfl
  · intro digits hmem hpoint
    refine hderives.shortIntegers digits ?_ hpoint
    rw [htokens', List.mem_append, List.mem_cons] at hmem
    rw [hprogram, List.mem_append, List.mem_cons]
    rcases hmem with hmem | hmem | hmem
    · exact Or.inl hmem
    · cases hmem
    · exact Or.inr (Or.inr hmem)

/-- Strings are read as the texts that were written. Wherever a text of queries has a
term, any text may be written, escaped and between quote signs of either kind: what is
read has a constant with this text in place of the term, and nothing else is changed.
In each string token the two replacements come to one pass. -/
theorem parse_escape_fills_gap {quote : Char} (hquote : Token.IsQuoteSign quote) :
    (∀ before after t x queries, LaidOut (before ++ .token t :: after) → t.term? = some x →
      parse (String.ofList (textOf before ++ t.spelling ++ textOf after)) = .ok queries →
      ∃ gap : ProgramGap, gap.fill x = queries ∧ ∀ s : String,
        parse (String.ofList (textOf before ++ (quote :: Token.escape quote s.toList ++ [quote]) ++
          textOf after)) = .ok (gap.fill (.constant (.text s)))) ∧
    ∀ body, Token.StringBody quote body →
      Token.decode quote body = String.ofList (Token.unescape quote body) := by
  refine ⟨fun before after t x queries hlaid hterm hparse => ?_,
    fun body hbody => Token.decode_eq_unescape ⟨hquote, hbody⟩⟩
  have htext : ∀ u : Token, textOf before ++ u.spelling ++ textOf after =
      textOf (before ++ .token u :: after) := by
    intro u
    rw [textOf_append, textOf_cons, List.append_assoc]
    rfl
  rw [htext] at hparse
  obtain ⟨gap, hgap, hfill⟩ := exists_gap_of_parse hlaid hterm hparse
  refine ⟨gap, hgap, fun s => ?_⟩
  have hs := hfill quote (Token.escape quote s.toList) (Token.fits_escape hquote s.toList)
  rw [Token.decode_escape hquote, ← htext] at hs
  exact hs

/-- The text of a query up to its last term. -/
def beforeLastTerm : List Segment :=
  [.token (.relation ['A']), .token .opening, .token .closing, .space ' ', .token .arrow,
    .comment '%' [' ', Text.apostrophe], .space '\n', .token (.relation ['R']), .token .opening,
    .token (.variable ['x']), .token .comma]

def afterLastTerm : List Segment := [.token .closing, .space ' ', .token .dot]

theorem parse_escape_fills_gap_lastTerm :
    (∃ gap : ProgramGap,
      gap.fill (.variable "y") = [⟨⟨"A", []⟩, [⟨"R", [.variable "x", .variable "y"]⟩]⟩] ∧
      ∀ s : String,
        parse (String.ofList (textOf beforeLastTerm ++
          (Text.apostrophe :: Token.escape Text.apostrophe s.toList ++ [Text.apostrophe]) ++
          textOf afterLastTerm)) = .ok (gap.fill (.constant (.text s)))) ∧
    Token.decode Text.apostrophe ['\\', '\\', '\\', Text.apostrophe, '\\', 'n'] = "\\'\\n" := by
  have hquote : Token.IsQuoteSign Text.apostrophe := Or.inl rfl
  obtain ⟨hparse, hdecode⟩ := parse_escape_fills_gap hquote
  have hlaid : LaidOut (beforeLastTerm ++ .token (.variable ['y']) :: afterLastTerm) := by decide
  have hbody : Token.StringBody Text.apostrophe
      ['\\', '\\', '\\', Text.apostrophe, '\\', 'n'] :=
    .escaped (by decide) (.escaped (by decide) (.escaped (by decide) .nil))
  exact ⟨hparse _ _ _ _ _ hlaid rfl (by decide +kernel), (hdecode _ hbody).trans rfl⟩

example : parse "A('\\\\\\'\"', \"'\") :- ." =
    .ok [⟨⟨"A", [.constant (.text "\\'\""), .constant (.text "'")]⟩, []⟩] := by decide +kernel

end QueryForm

end Conjunctive
