import Conjunctive.Query.Token
import Mathlib.Data.List.TakeWhile

/-!
# Spellings of tokens

`Token.Fits` says which spellings a token may have, kind by kind. `Token.next?`
takes the longest token that fits: what it gives fits (`fits_next`), and where a
token fits, it gives one of the same kind that is at least as long
(`exists_next`). Together these say what it gives (`next?_eq_some_iff`).
-/

namespace Conjunctive

namespace Token

/-- What may stand in a string between quote signs: characters other than the quote
sign and the backslash, and backslashes each with a character that is no newline. -/
inductive StringBody (quote : Char) : List Char → Prop
  | nil : StringBody quote []
  | plain {c : Char} {cs : List Char} :
      c ≠ quote → c ≠ '\\' → StringBody quote cs → StringBody quote (c :: cs)
  | escaped {c : Char} {cs : List Char} :
      c ≠ '\n' → StringBody quote cs → StringBody quote ('\\' :: c :: cs)

/-- One or more digits. -/
def Digits (ds : List Char) : Prop := ds ≠ [] ∧ ∀ d ∈ ds, d.isDigit = true

/-- Digits, or digits with a point between them. -/
def Decimal (ds : List Char) : Prop :=
  Digits ds ∨ ∃ whole fraction, ds = whole ++ '.' :: fraction ∧ Digits whole ∧ Digits fraction

/-- The signs that may enclose a string. -/
def IsQuoteSign (c : Char) : Prop := c = Text.apostrophe ∨ c = Text.quotationMark

/-- Whether a token is spelled as its kind demands. -/
def Fits : Token → Prop
  | relation name =>
    ∃ c cs, name = c :: cs ∧ c.isUpper = true ∧ ∀ d ∈ cs, isRelationPart d = true
  | .variable name =>
    ∃ letters digits, name = letters ++ digits ∧ letters ≠ [] ∧
      (∀ c ∈ letters, c.isLower = true) ∧ ∀ d ∈ digits, d.isDigit = true
  | number digits => Decimal digits ∨ ∃ ds, digits = '-' :: ds ∧ Decimal ds
  | string quote body => IsQuoteSign quote ∧ StringBody quote body
  | _ => True

/-! ### Classes of characters -/

theorem isUpper_iff {c : Char} : c.isUpper = true ↔ 65 ≤ c.toNat ∧ c.toNat ≤ 90 := by
  change decide ('A'.val ≤ c.val ∧ c.val ≤ 'Z'.val) = true ↔ _
  rw [decide_eq_true_iff]
  exact Iff.rfl

theorem isLower_iff {c : Char} : c.isLower = true ↔ 97 ≤ c.toNat ∧ c.toNat ≤ 122 := by
  change (decide ('a'.val ≤ c.val) && decide (c.val ≤ 'z'.val)) = true ↔ _
  rw [Bool.and_eq_true, decide_eq_true_iff, decide_eq_true_iff]
  exact Iff.rfl

theorem isDigit_iff {c : Char} : c.isDigit = true ↔ 48 ≤ c.toNat ∧ c.toNat ≤ 57 :=
  Char.isDigit_iff_toNat

theorem isAlphanum_iff {c : Char} : c.isAlphanum = true ↔
    c.isUpper = true ∨ c.isLower = true ∨ c.isDigit = true := by
  change (c.isUpper || c.isLower || c.isDigit) = true ↔ _
  rw [Bool.or_eq_true, Bool.or_eq_true, or_assoc]

theorem isUpper_eq_false_of_isLower {c : Char} (h : c.isLower = true) : c.isUpper = false := by
  rw [Bool.eq_false_iff, Ne, isUpper_iff]
  rw [isLower_iff] at h
  omega

theorem isUpper_eq_false_of_isDigit {c : Char} (h : c.isDigit = true) : c.isUpper = false := by
  rw [Bool.eq_false_iff, Ne, isUpper_iff]
  rw [isDigit_iff] at h
  omega

theorem isLower_eq_false_of_isDigit {c : Char} (h : c.isDigit = true) : c.isLower = false := by
  rw [Bool.eq_false_iff, Ne, isLower_iff]
  rw [isDigit_iff] at h
  omega

/-! ### Variables -/

theorem fits_splitVariable {c : Char} (hc : c.isLower = true) (cs : List Char) :
    (Token.variable (splitVariable (c :: cs)).1).Fits := by
  refine ⟨_, _, rfl, ?_, fun d hd => List.mem_takeWhile_imp hd,
    fun d hd => List.mem_takeWhile_imp hd⟩
  rw [List.takeWhile_cons_of_pos hc]
  exact List.cons_ne_nil _ _

theorem prefix_splitVariable {letters digits : List Char}
    (hletters : ∀ c ∈ letters, c.isLower = true)
    (hdigits : ∀ d ∈ digits, d.isDigit = true) (rest : List Char) :
    letters ++ digits <+: (splitVariable (letters ++ digits ++ rest)).1 := by
  rw [splitVariable, List.append_assoc, List.takeWhile_append_of_pos hletters,
    List.dropWhile_append_of_pos hletters]
  cases digits with
  | nil =>
      rw [List.append_nil, List.append_assoc]
      exact List.prefix_append _ _
  | cons d ds =>
      have hd : ¬ d.isLower = true := by
        rw [isLower_eq_false_of_isDigit (hdigits d (by simp))]
        exact Bool.false_ne_true
      rw [List.cons_append, List.takeWhile_cons_of_neg hd, List.dropWhile_cons_of_neg hd,
        List.append_nil, ← List.cons_append, List.takeWhile_append_of_pos hdigits,
        List.prefix_append_right_inj]
      exact List.prefix_append _ _

/-! ### Numbers -/

theorem decimal_splitNumber {d : Char} (hd : d.isDigit = true) (ds : List Char) :
    Decimal (splitNumber (d :: ds)).1 := by
  have hwhole : Digits ((d :: ds).takeWhile Char.isDigit) := by
    refine ⟨?_, fun e he => List.mem_takeWhile_imp he⟩
    rw [List.takeWhile_cons_of_pos hd]
    exact List.cons_ne_nil _ _
  unfold splitNumber
  split
  next e es hrest =>
    split_ifs with he
    · refine Or.inr ⟨_, _, rfl, hwhole, ?_, fun f hf => List.mem_takeWhile_imp hf⟩
      rw [List.takeWhile_cons_of_pos he]
      exact List.cons_ne_nil _ _
    · exact Or.inl hwhole
  next => exact Or.inl hwhole

theorem prefix_splitNumber {ds : List Char} (h : Decimal ds) (rest : List Char) :
    ds <+: (splitNumber (ds ++ rest)).1 := by
  rcases h with hds | ⟨whole, fraction, rfl, hwhole, hfraction⟩
  · have htake : ds <+: (ds ++ rest).takeWhile Char.isDigit := by
      rw [List.takeWhile_append_of_pos hds.2]
      exact List.prefix_append _ _
    unfold splitNumber
    split
    next =>
      split_ifs
      · exact htake.trans (List.prefix_append _ _)
      · exact htake
    next => exact htake
  · obtain ⟨e, es, rfl⟩ := List.exists_cons_of_ne_nil hfraction.1
    have hpoint : ¬ ('.' : Char).isDigit = true := by decide
    have he : e.isDigit = true := hfraction.2 e (by simp)
    have htake : (whole ++ '.' :: e :: es ++ rest).takeWhile Char.isDigit = whole := by
      rw [List.append_assoc, List.takeWhile_append_of_pos hwhole.2, List.cons_append,
        List.takeWhile_cons_of_neg hpoint, List.append_nil]
    have hdrop : (whole ++ '.' :: e :: es ++ rest).dropWhile Char.isDigit =
        '.' :: e :: (es ++ rest) := by
      rw [List.append_assoc, List.dropWhile_append_of_pos hwhole.2, List.cons_append,
        List.dropWhile_cons_of_neg hpoint, List.cons_append]
    rw [splitNumber, htake, hdrop]
    simp only [he, if_true]
    rw [List.prefix_append_right_inj, List.prefix_cons_inj, ← List.cons_append,
      List.takeWhile_append_of_pos hfraction.2]
    exact List.prefix_append _ _

/-! ### Strings -/

theorem IsQuoteSign.ne_backslash {quote : Char} (h : IsQuoteSign quote) : quote ≠ '\\' := by
  rcases h with rfl | rfl <;> decide

theorem splitString_quote (quote : Char) (cs : List Char) :
    splitString quote (quote :: cs) = some ([], cs) := by
  cases cs <;> simp [splitString]

theorem splitString_plain {quote c : Char} (hc : c ≠ quote) (hc' : c ≠ '\\') (cs : List Char) :
    splitString quote (c :: cs) = (splitString quote cs).map fun s => (c :: s.1, s.2) := by
  cases cs <;> simp [splitString, hc, hc']

theorem splitString_escaped {quote c : Char} (hquote : quote ≠ '\\') (hc : c ≠ '\n')
    (cs : List Char) :
    splitString quote ('\\' :: c :: cs) =
      (splitString quote cs).map fun s => ('\\' :: c :: s.1, s.2) := by
  simp [splitString, hquote.symm, hc]

/-- A string body ends at the first quote sign that no backslash takes with it. -/
theorem splitString_append {quote : Char} (hquote : quote ≠ '\\') {body : List Char}
    (h : StringBody quote body) (rest : List Char) :
    splitString quote (body ++ quote :: rest) = some (body, rest) := by
  induction h with
  | nil => exact splitString_quote quote rest
  | plain hc hc' _ ih =>
      rw [List.cons_append, splitString_plain hc hc', ih]
      rfl
  | escaped hc _ ih =>
      rw [List.cons_append, List.cons_append, splitString_escaped hquote hc, ih]
      rfl

theorem stringBody_of_splitString {quote : Char} {cs : List Char} {s : List Char × List Char}
    (h : splitString quote cs = some s) : StringBody quote s.1 := by
  fun_induction splitString quote cs generalizing s with
  | case1 => cases h
  | case2 =>
      cases h
      exact .nil
  | case3 => cases h
  | case4 =>
      cases h
      exact .nil
  | case5 => cases h
  | case6 d cs hd _ ih =>
      obtain ⟨t, ht, rfl⟩ := Option.map_eq_some_iff.mp h
      exact .escaped hd (ih ht)
  | case7 c d cs hc hc' ih =>
      obtain ⟨t, ht, rfl⟩ := Option.map_eq_some_iff.mp h
      exact .plain hc hc' (ih ht)

/-! ### The token at the start of a text -/

theorem next?_of_isUpper {c : Char} (h : c.isUpper = true) (cs : List Char) :
    next? (c :: cs) =
      some (relation (c :: cs.takeWhile isRelationPart), cs.dropWhile isRelationPart) := by
  unfold next?
  dsimp only
  rw [if_pos h]

theorem next?_of_isLower {c : Char} (h : c.isLower = true) (cs : List Char) :
    next? (c :: cs) =
      some (.variable (splitVariable (c :: cs)).1, (splitVariable (c :: cs)).2) := by
  unfold next?
  dsimp only
  rw [if_neg (by simp [isUpper_eq_false_of_isLower h]), if_pos h]

theorem next?_of_isDigit {c : Char} (h : c.isDigit = true) (cs : List Char) :
    next? (c :: cs) = some (number (splitNumber (c :: cs)).1, (splitNumber (c :: cs)).2) := by
  unfold next?
  dsimp only
  rw [if_neg (by simp [isUpper_eq_false_of_isDigit h]),
    if_neg (by simp [isLower_eq_false_of_isDigit h]), if_pos h]

theorem next?_minus {c : Char} (h : c.isDigit = true) (cs : List Char) :
    next? ('-' :: c :: cs) =
      some (number ('-' :: (splitNumber (c :: cs)).1), (splitNumber (c :: cs)).2) := by
  unfold next?
  simp [h]

theorem next?_quote {quote : Char} (h : IsQuoteSign quote) (cs : List Char) :
    next? (quote :: cs) = (splitString quote cs).map fun s => (string quote s.1, s.2) := by
  rcases h with rfl | rfl <;> simp [next?, Text.apostrophe, Text.quotationMark]

/-- What is taken from the start of a text fits. -/
theorem fits_next {cs : List Char} {t : Token} {rest : List Char}
    (h : next? cs = some (t, rest)) : t.Fits := by
  cases cs with
  | nil => cases h
  | cons c cs =>
      by_cases hupper : c.isUpper = true
      · rw [next?_of_isUpper hupper] at h
        cases h
        exact ⟨c, _, rfl, hupper, fun d hd => List.mem_takeWhile_imp hd⟩
      by_cases hlower : c.isLower = true
      · rw [next?_of_isLower hlower] at h
        cases h
        exact fits_splitVariable hlower cs
      by_cases hdigit : c.isDigit = true
      · rw [next?_of_isDigit hdigit] at h
        cases h
        exact Or.inl (decimal_splitNumber hdigit cs)
      by_cases hquote : IsQuoteSign c
      · rw [next?_quote hquote] at h
        obtain ⟨s, hs, heq⟩ := Option.map_eq_some_iff.mp h
        cases heq
        exact ⟨hquote, stringBody_of_splitString hs⟩
      unfold IsQuoteSign at hquote
      unfold next? at h
      dsimp only at h
      rw [if_neg hupper, if_neg hlower, if_neg hdigit] at h
      by_cases hminus : c = '-'
      · rw [if_pos hminus] at h
        cases cs with
        | nil => cases h
        | cons d ds =>
            by_cases hd : d.isDigit = true
            · rw [if_pos (by simpa using hd)] at h
              cases h
              exact Or.inr ⟨_, congrArg (· :: _) hminus, decimal_splitNumber hd ds⟩
            · rw [if_neg (by simpa using hd)] at h
              cases h
      rw [if_neg hminus, if_neg hquote] at h
      split at h
      · split at h
        · cases h
          trivial
        · cases h
      · split_ifs at h
        all_goals
          cases h
          trivial

theorem Decimal.exists_cons {ds : List Char} (h : Decimal ds) :
    ∃ d es, ds = d :: es ∧ d.isDigit = true := by
  rcases h with ⟨hne, hds⟩ | ⟨whole, fraction, rfl, ⟨hne, hds⟩, -⟩
  · obtain ⟨d, es, rfl⟩ := List.exists_cons_of_ne_nil hne
    exact ⟨d, es, rfl, hds d (by simp)⟩
  · obtain ⟨d, es, rfl⟩ := List.exists_cons_of_ne_nil hne
    exact ⟨d, es ++ '.' :: fraction, rfl, hds d (by simp)⟩

/-- A string is taken up to its closing quote sign. -/
theorem next?_string {quote : Char} {body : List Char} (h : (string quote body).Fits)
    (rest : List Char) :
    next? ((string quote body).spelling ++ rest) = some (string quote body, rest) := by
  obtain ⟨hquote, hbody⟩ := h
  have hsplit := splitString_append hquote.ne_backslash hbody rest
  change next? (quote :: body ++ [quote] ++ rest) = _
  rw [List.append_assoc, List.cons_append, next?_quote hquote]
  change (splitString quote (body ++ quote :: rest)).map _ = _
  rw [hsplit]
  rfl

/-- Where a token fits, the token taken is of its kind and at least as long. -/
theorem exists_next {t : Token} (ht : t.Fits) (rest : List Char) :
    ∃ u rest', next? (t.spelling ++ rest) = some (u, rest') ∧ u.terminal = t.terminal ∧
      t.spelling <+: u.spelling := by
  cases t with
  | relation name =>
      obtain ⟨c, cs, rfl, hc, hcs⟩ := ht
      refine ⟨_, _, next?_of_isUpper hc (cs ++ rest), rfl, ?_⟩
      change c :: cs <+: c :: (cs ++ rest).takeWhile isRelationPart
      rw [List.prefix_cons_inj, List.takeWhile_append_of_pos hcs]
      exact List.prefix_append _ _
  | «variable» name =>
      obtain ⟨letters, digits, rfl, hne, hletters, hdigits⟩ := ht
      have hprefix := prefix_splitVariable hletters hdigits rest
      obtain ⟨c, cs, rfl⟩ := List.exists_cons_of_ne_nil hne
      exact ⟨_, _, next?_of_isLower (hletters c (by simp)) (cs ++ digits ++ rest), rfl, hprefix⟩
  | number digits =>
      rcases ht with hdecimal | ⟨ds, rfl, hdecimal⟩
      · have hprefix := prefix_splitNumber hdecimal rest
        obtain ⟨d, es, rfl, hd⟩ := hdecimal.exists_cons
        exact ⟨_, _, next?_of_isDigit hd (es ++ rest), rfl, hprefix⟩
      · have hprefix := prefix_splitNumber hdecimal rest
        obtain ⟨d, es, rfl, hd⟩ := hdecimal.exists_cons
        refine ⟨_, _, next?_minus hd (es ++ rest), rfl, ?_⟩
        exact (List.prefix_cons_inj '-').mpr hprefix
  | string quote body =>
      exact ⟨string quote body, rest, next?_string ht rest, rfl, List.prefix_refl _⟩
  | arrow => exact ⟨arrow, rest, rfl, rfl, List.prefix_refl _⟩
  | dot => exact ⟨dot, rest, rfl, rfl, List.prefix_refl _⟩
  | comma => exact ⟨comma, rest, rfl, rfl, List.prefix_refl _⟩
  | opening => exact ⟨opening, rest, rfl, rfl, List.prefix_refl _⟩
  | closing => exact ⟨closing, rest, rfl, rfl, List.prefix_refl _⟩

/-! ### Longest tokens -/

/-- Tokens of one kind with one spelling are the same. -/
theorem eq_of_spelling_eq {t u : Token} (hterminal : t.terminal = u.terminal)
    (hspelling : t.spelling = u.spelling) : t = u := by
  cases t <;> cases u <;> try cases hterminal
  case string.string quote body quote' body' =>
    obtain ⟨hquote, hbody⟩ := List.cons.inj hspelling
    rw [hquote] at hbody ⊢
    rw [List.append_cancel_right hbody]
  all_goals first | rfl | exact congrArg _ hspelling

/-- A token fits at the start of a text, and no longer one of its kind does. -/
structure Longest (t : Token) (rest : List Char) : Prop where
  fits : t.Fits
  length_le : ∀ u : Token, u.Fits → u.terminal = t.terminal → u.spelling <+: t.spelling ++ rest →
    u.spelling.length ≤ t.spelling.length

/-- The token taken from the start of a text is the longest of its kind. -/
theorem next?_eq_some_iff {cs : List Char} {t : Token} {rest : List Char} :
    next? cs = some (t, rest) ↔ cs = t.spelling ++ rest ∧ t.Longest rest := by
  constructor
  · intro h
    have happend := append_next h
    refine ⟨happend.symm, fits_next h, fun u hu hterminal hprefix => ?_⟩
    obtain ⟨rest', hrest'⟩ := hprefix
    obtain ⟨v, rest'', hnext, -, hlong⟩ := exists_next hu rest'
    rw [hrest', happend, h] at hnext
    cases hnext
    exact hlong.length_le
  · rintro ⟨rfl, hfits, hlongest⟩
    obtain ⟨u, rest', hnext, hterminal, hlong⟩ := exists_next hfits rest
    have happend := append_next hnext
    have hle := hlongest u (fits_next hnext) hterminal ⟨rest', happend⟩
    have heq : t.spelling = u.spelling := hlong.eq_of_length_le hle
    cases eq_of_spelling_eq hterminal heq.symm
    rw [hnext, List.append_cancel_left happend]

instance (t : Token) (rest : List Char) : Decidable (t.Longest rest) :=
  decidable_of_iff (next? (t.spelling ++ rest) = some (t, rest)) <| by
    rw [next?_eq_some_iff, and_iff_right rfl]

/-! ### Where a token ends -/

/-- Whether a token is a name or a number, which could go on with further characters. -/
def IsWord : Token → Prop
  | relation _ => True
  | .variable _ => True
  | number _ => True
  | _ => False

theorem IsWord.of_terminal_eq {t u : Token} (h : t.IsWord) (hterminal : u.terminal = t.terminal) :
    u.IsWord := by
  cases t <;> cases u <;> trivial

/-- The characters of names and numbers. -/
def isWordPart (c : Char) : Bool := isRelationPart c || c == '-' || c == '.'

theorem isWordPart_of_isLower {c : Char} (h : c.isLower = true) : isWordPart c = true := by
  simp [isWordPart, isRelationPart, isAlphanum_iff, h]

theorem isWordPart_of_isDigit {c : Char} (h : c.isDigit = true) : isWordPart c = true := by
  simp [isWordPart, isRelationPart, isAlphanum_iff, h]

theorem Decimal.isWordPart {ds : List Char} (h : Decimal ds) : ∀ c ∈ ds, isWordPart c = true := by
  intro c hc
  rcases h with ⟨-, hds⟩ | ⟨whole, fraction, rfl, ⟨-, hwhole⟩, -, hfraction⟩
  · exact isWordPart_of_isDigit (hds c hc)
  · rcases List.mem_append.mp hc with hc | hc
    · exact isWordPart_of_isDigit (hwhole c hc)
    · rcases List.mem_cons.mp hc with rfl | hc
      · decide
      · exact isWordPart_of_isDigit (hfraction c hc)

theorem Fits.isWordPart {t : Token} (h : t.Fits) (hword : t.IsWord) :
    ∀ c ∈ t.spelling, isWordPart c = true := by
  intro c hc
  cases t with
  | relation name =>
      obtain ⟨d, ds, rfl, hd, hds⟩ := h
      rcases List.mem_cons.mp hc with rfl | hc
      · simp [Token.isWordPart, isRelationPart, isAlphanum_iff, hd]
      · simp [Token.isWordPart, hds c hc]
  | «variable» name =>
      obtain ⟨letters, digits, rfl, -, hletters, hdigits⟩ := h
      rcases List.mem_append.mp hc with hc | hc
      · exact isWordPart_of_isLower (hletters c hc)
      · exact isWordPart_of_isDigit (hdigits c hc)
  | number digits =>
      rcases h with hdecimal | ⟨ds, rfl, hdecimal⟩
      · exact hdecimal.isWordPart c hc
      · rcases List.mem_cons.mp hc with rfl | hc
        · decide
        · exact hdecimal.isWordPart c hc
  | _ => cases hword

/-- A name or a number is the longest where no character of its sort follows. -/
theorem Fits.longest_of_isWord {t : Token} (h : t.Fits) (hword : t.IsWord) {rest : List Char}
    (hrest : ∀ c ∈ rest.head?, Token.isWordPart c = false) : t.Longest rest := by
  refine ⟨h, fun u hu hterminal hprefix => ?_⟩
  have huword := hword.of_terminal_eq hterminal
  by_contra hlong
  obtain ⟨c, cs, hcs⟩ : ∃ c cs, rest = c :: cs := by
    cases rest with
    | nil =>
        rw [List.append_nil] at hprefix
        exact absurd hprefix.length_le hlong
    | cons c cs => exact ⟨c, cs, rfl⟩
  have hmem : c ∈ u.spelling := by
    have hstart : t.spelling ++ [c] <+: u.spelling := by
      refine List.prefix_of_prefix_length_le ?_ hprefix ?_
      · rw [hcs]
        exact ⟨cs, by simp⟩
      · rw [List.length_append, List.length_singleton]
        omega
    exact hstart.subset (by simp)
  have hc := hrest c (by rw [hcs]; rfl)
  rw [hu.isWordPart huword c hmem] at hc
  cases hc

/-- A string ends at its closing quote sign, and the other tokens have one spelling
only, so that these are the longest before any text. -/
theorem Fits.longest_of_not_isWord {t : Token} (h : t.Fits) (hword : ¬ t.IsWord)
    (rest : List Char) : t.Longest rest := by
  suffices hnext : next? (t.spelling ++ rest) = some (t, rest) from
    (next?_eq_some_iff.mp hnext).2
  cases t with
  | string quote body => exact next?_string h rest
  | relation name => exact absurd trivial hword
  | «variable» name => exact absurd trivial hword
  | number digits => exact absurd trivial hword
  | _ => rfl

end Token

end Conjunctive
