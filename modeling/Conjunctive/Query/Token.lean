import Conjunctive.Text.Quoted

/-!
# Tokens of query texts

A query text is a sequence of tokens with ignored text before, between and
after them: white space, and comments that run from a percent or number sign to
the end of the line. A token is taken as long as it can be. The kinds of token
start with different characters, so the first character decides which kind is
tried, and `Token.next?` needs no context.

`Token.scan` cuts a text into tokens. It stops at the first place where none
fits, and remembers for each token how much text was left where it began.
-/

namespace Conjunctive

/-- The kinds of token. -/
inductive Terminal where
  | relation
  | variable
  | number
  | string
  | arrow
  | dot
  | comma
  | opening
  | closing
  deriving DecidableEq

/-- A token with the characters that it is spelled with. -/
inductive Token where
  | relation (name : List Char)
  | variable (name : List Char)
  | number (digits : List Char)
  | string (quote : Char) (body : List Char)
  | arrow
  | dot
  | comma
  | opening
  | closing
  deriving DecidableEq

namespace Token

/-- The kind of a token. -/
def terminal : Token → Terminal
  | relation _ => .relation
  | .variable _ => .variable
  | number _ => .number
  | string _ _ => .string
  | arrow => .arrow
  | dot => .dot
  | comma => .comma
  | opening => .opening
  | closing => .closing

/-- The text of a token. -/
def spelling : Token → List Char
  | relation name => name
  | .variable name => name
  | number digits => digits
  | string quote body => quote :: body ++ [quote]
  | arrow => [':', '-']
  | dot => ['.']
  | comma => [',']
  | opening => ['(']
  | closing => [')']

/-! ### Ignored text -/

/-- The white space between tokens. -/
def isSpace (c : Char) : Bool :=
  c == ' ' || c == '\t' || c == '\x0c' || c == '\r' || c == '\n'

/-- The signs that begin a comment. -/
def isCommentSign (c : Char) : Bool := c == '%' || c == '#'

/-- Drop ignored text, starting inside a comment or outside. -/
def skipFrom (inComment : Bool) : List Char → List Char
  | [] => []
  | c :: cs =>
    if inComment then skipFrom (c != '\n') cs
    else if isSpace c then skipFrom false cs
    else if isCommentSign c then skipFrom true cs
    else c :: cs

/-- Drop the ignored text in front of a token. -/
def skip (cs : List Char) : List Char := skipFrom false cs

theorem length_skipFrom_le (b : Bool) (cs : List Char) :
    (skipFrom b cs).length ≤ cs.length := by
  induction cs generalizing b with
  | nil => simp [skipFrom]
  | cons c cs ih =>
      have hf := ih false
      have ht := ih true
      have hn := ih (c != '\n')
      simp only [skipFrom]
      split <;> (try split) <;> (try split) <;> simp only [List.length_cons] <;> omega

/-! ### The kinds of token -/

/-- The characters after the first of a relation name. -/
def isRelationPart (c : Char) : Bool := c.isAlphanum || c == '_'

/-- A variable: small letters, then digits. Gives the rest as well. -/
def splitVariable (cs : List Char) : List Char × List Char :=
  let letters := cs.takeWhile Char.isLower
  let rest := cs.dropWhile Char.isLower
  (letters ++ rest.takeWhile Char.isDigit, rest.dropWhile Char.isDigit)

/-- A number without its sign: digits, and a point if a digit follows it, with
the digits after it. -/
def splitNumber (cs : List Char) : List Char × List Char :=
  let whole := cs.takeWhile Char.isDigit
  match cs.dropWhile Char.isDigit with
  | '.' :: d :: ds =>
    if d.isDigit then
      (whole ++ '.' :: (d :: ds).takeWhile Char.isDigit, (d :: ds).dropWhile Char.isDigit)
    else (whole, '.' :: d :: ds)
  | rest => (whole, rest)

/-- The body of a string up to its closing quote, and what follows. A
backslash takes the next character with it, which may not be a newline. -/
def splitString (quote : Char) : List Char → Option (List Char × List Char)
  | [] => none
  | [c] => if c = quote then some ([], []) else none
  | c :: d :: cs =>
    if c = quote then some ([], d :: cs)
    else if c = '\\' then
      if d = '\n' then none
      else (splitString quote cs).map fun s => (c :: d :: s.1, s.2)
    else (splitString quote (d :: cs)).map fun s => (c :: s.1, s.2)

/-- The token at the start of a text, and the text after it. -/
def next? : List Char → Option (Token × List Char)
  | [] => none
  | c :: cs =>
    if c.isUpper then some (relation (c :: cs.takeWhile isRelationPart), cs.dropWhile isRelationPart)
    else if c.isLower then
      let (name, rest) := splitVariable (c :: cs)
      some (.variable name, rest)
    else if c.isDigit then
      let (digits, rest) := splitNumber (c :: cs)
      some (number digits, rest)
    else if c = '-' then
      if cs.head?.any Char.isDigit then
        let (digits, rest) := splitNumber cs
        some (number (c :: digits), rest)
      else none
    else if c = Text.apostrophe ∨ c = Text.quotationMark then
      (splitString c cs).map fun s => (string c s.1, s.2)
    else if c = ':' then
      match cs with
      | '-' :: rest => some (arrow, rest)
      | _ => none
    else if c = '.' then some (dot, cs)
    else if c = ',' then some (comma, cs)
    else if c = '(' then some (opening, cs)
    else if c = ')' then some (closing, cs)
    else none

/-! ### A token is a non-empty first part of the text -/

theorem append_splitVariable (cs : List Char) :
    (splitVariable cs).1 ++ (splitVariable cs).2 = cs := by
  simp [splitVariable, List.append_assoc]

theorem append_splitNumber (cs : List Char) :
    (splitNumber cs).1 ++ (splitNumber cs).2 = cs := by
  have h := List.takeWhile_append_dropWhile (p := Char.isDigit) (l := cs)
  unfold splitNumber
  split
  next d ds hd =>
    split
    · rw [List.append_assoc, List.cons_append, List.takeWhile_append_dropWhile, ← hd]
      exact h
    · rw [← hd]; exact h
  next => exact h

theorem append_splitString {quote : Char} {cs : List Char} {s : List Char × List Char}
    (h : splitString quote cs = some s) : s.1 ++ quote :: s.2 = cs := by
  fun_induction splitString quote cs generalizing s with
  | case1 => simp at h
  | case2 => simp at h; subst h; simp
  | case3 => simp at h
  | case4 => simp at h; subst h; simp
  | case5 => simp at h
  | case6 d cs _ _ ih =>
      obtain ⟨t, ht, rfl⟩ := Option.map_eq_some_iff.mp h
      simp [ih ht]
  | case7 c d cs _ _ ih =>
      obtain ⟨t, ht, rfl⟩ := Option.map_eq_some_iff.mp h
      simp [ih ht]

/-- What `next?` gives is the text it was given: the token, then the rest. -/
theorem append_next {cs : List Char} {t : Token} {rest : List Char}
    (h : next? cs = some (t, rest)) : t.spelling ++ rest = cs := by
  cases cs with
  | nil => simp [next?] at h
  | cons c cs =>
      simp only [next?] at h
      repeat' split at h
      all_goals try simp only [Option.some.injEq, Prod.mk.injEq, reduceCtorEq,
        Option.map_eq_some_iff] at h
      all_goals try (obtain ⟨rfl, rfl⟩ := h)
      · simp [spelling]
      · simpa [spelling] using append_splitVariable (c :: cs)
      · simpa [spelling] using append_splitNumber (c :: cs)
      · simpa [spelling] using append_splitNumber cs
      · obtain ⟨s, hs, rfl, rfl⟩ := h
        have := append_splitString hs
        simpa [spelling] using this
      all_goals simp_all [spelling]

/-- The token that `next?` gives has at least one character. -/
theorem spelling_ne_nil {cs : List Char} {t : Token} {rest : List Char}
    (h : next? cs = some (t, rest)) : t.spelling ≠ [] := by
  cases cs with
  | nil => simp [next?] at h
  | cons c cs =>
      simp only [next?] at h
      repeat' split at h
      all_goals try simp only [Option.some.injEq, Prod.mk.injEq, reduceCtorEq,
        Option.map_eq_some_iff] at h
      all_goals try (obtain ⟨rfl, rfl⟩ := h)
      · simp [spelling]
      · simp_all [spelling, splitVariable]
      · rename_i hd
        simp only [spelling, splitNumber, List.takeWhile_cons, hd, if_true]
        repeat' split
        all_goals simp
      · simp [spelling]
      · obtain ⟨s, -, rfl, -⟩ := h
        simp [spelling]
      all_goals simp_all [spelling]

/-- A token takes up text. -/
theorem length_next_lt {cs : List Char} {t : Token} {rest : List Char}
    (h : next? cs = some (t, rest)) : rest.length < cs.length := by
  have hs := List.length_pos_iff.mpr (spelling_ne_nil h)
  have := congrArg List.length (append_next h)
  simp only [List.length_append] at this
  omega

/-! ### A text as tokens -/

/-- The tokens of a text, each with the length of the text from its first
character on, and the text that is left where no token fits. -/
structure Scanned where
  tokens : List (Token × Nat)
  stop : List Char

/-- Cut a text into tokens as far as they fit. -/
def scan (cs : List Char) : Scanned :=
  let start := skip cs
  match h : next? start with
  | none => ⟨[], start⟩
  | some (t, rest) =>
    have : rest.length < cs.length :=
      Nat.lt_of_lt_of_le (length_next_lt h) (length_skipFrom_le false cs)
    let s := scan rest
    ⟨(t, start.length) :: s.tokens, s.stop⟩
termination_by cs.length

end Token

end Conjunctive
