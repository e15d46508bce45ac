import Conjunctive.Query.Resolve
import Conjunctive.Proofs.Query.Numbers
import Conjunctive.Proofs.Query.Quoting
import Conjunctive.Proofs.Query.Splitting

/-!
# Queries that are written and parsed

A query is written as tokens with spaces between some of them. `Term.tree`,
`AtomForm.tree` and `QueryForm.tree` are the syntax trees of these tokens, and what
the trees are read as is the form of the query (`QueryForm.form_tree`). So a query is
parsed as itself, provided its names are such as the grammar has, its texts hold
nothing that has to be escaped, and its numbers are written without an exponent.
-/

namespace Conjunctive

/-! ### Terms -/

namespace Term

/-- The tree of the token that a term is written as. -/
def tree : Term → TermTree
  | .variable n => .variable n.toList
  | .constant (.int n) => .number (toString n).toList
  | .constant (.float x) => .number (FloatStyle.cell.write x).toList
  | .constant (.text s) => .string Text.apostrophe s.toList

/-- Whether a term is written as a token of its kind that encodes nothing else. -/
def Writable : Term → Prop
  | .variable n => (Token.variable n.toList).Fits
  | .constant (.int n) => (Nat.toDigits 10 n.natAbs).length ≤ Literal.digitLimit
  | .constant (.float x) => Token.IsPositional x
  | .constant (.text s) => Text.apostrophe ∉ s.toList ∧ '\\' ∉ s.toList

/-- The text of a float reads back. -/
def ReadsBack : Term → Prop
  | .constant (.float x) => Literal.float? (FloatStyle.cell.write x).toList = some x
  | _ => True

variable {t : Term}

theorem spelling_tree (t : Term) : t.tree.token.spelling = t.display.toList := by
  obtain n | (n | x | s) := t
  · rfl
  · rfl
  · rfl
  · change Text.apostrophe :: s.toList ++ [Text.apostrophe] = ("'" ++ s ++ "'").toList
    rw [String.toList_append, String.toList_append]
    rfl

/-- A text without backslashes and apostrophes needs no escaping. -/
theorem escape_eq_self {cs : List Char} (h : Text.apostrophe ∉ cs ∧ '\\' ∉ cs) :
    Token.escape Text.apostrophe cs = cs := by
  induction cs with
  | nil => rfl
  | cons c cs ih =>
      simp only [List.mem_cons, not_or] at h
      rw [Token.escape_cons, if_neg (not_or.mpr ⟨Ne.symm h.2.1, Ne.symm h.1.1⟩),
        ih ⟨h.1.2, h.2.2⟩, List.singleton_append]

theorem Writable.fits (h : t.Writable) : t.tree.token.Fits := by
  obtain n | (n | x | s) := t
  · exact h
  · exact Token.fits_int n
  · exact Token.IsPositional.fits h
  · have hfits := Token.fits_escape (Or.inl rfl : Token.IsQuoteSign Text.apostrophe) s.toList
    rwa [escape_eq_self h] at hfits

/-- The tree of a term is read as this term. -/
theorem Writable.term_tree (h : t.Writable) (hread : t.ReadsBack) : t.tree.term = t := by
  obtain n | (n | x | s) := t
  · exact congrArg Term.variable String.ofList_toList
  · exact congrArg Term.constant (Token.numberConstant_int n)
  · exact congrArg Term.constant (Token.IsPositional.numberConstant_eq h hread)
  · have hdecode := Token.decode_escape (Or.inl rfl : Token.IsQuoteSign Text.apostrophe) s
    rw [escape_eq_self h] at hdecode
    exact congrArg (Term.constant ∘ Constant.text) hdecode

/-- A term that is written as an integer has few enough digits. -/
theorem Writable.length_le (h : t.Writable) {digits : List Char} (ht : t.tree = .number digits)
    (hpoint : '.' ∉ digits) : (digits.filter Char.isDigit).length ≤ Literal.digitLimit := by
  obtain n | (n | x | s) := t
  · cases ht
  · cases ht
    rw [Token.filter_isDigit_int]
    exact h
  · cases ht
    exact absurd (Token.IsPositional.point_mem h) hpoint
  · cases ht

end Term

/-! ### Items with commas between them -/

/-- Items that are tokens and spaces are so with commas and spaces between them. -/
theorem Spaced.intercalate {α : Type} {f : α → String} {g : α → List Token} {xs : List α}
    (h : ∀ x ∈ xs, Spaced (f x).toList (g x)) :
    Spaced (String.intercalate ", " (xs.map f)).toList (separated (xs.map g)) := by
  have hcomma : Spaced ", ".toList [.comma] :=
    (Spaced.token (t := .comma) trivial).append (Spaced.space (c := ' ') rfl)
  induction xs with
  | nil => exact .nil
  | cons x xs ih =>
      obtain ⟨hx, hxs⟩ := List.forall_mem_cons.mp h
      cases xs with
      | nil => simpa [separated] using hx
      | cons y ys =>
          have hrest := (hx.append hcomma).append (ih hxs)
          have htokens : separated ((x :: y :: ys).map g) =
              g x ++ [.comma] ++ separated ((y :: ys).map g) := by
            simp [separated]
          rw [htokens, List.map_cons, List.map_cons, String.intercalate_cons_cons,
            String.toList_append, String.toList_append]
          exact hrest

/-! ### Atoms -/

namespace AtomForm

/-- An atom as it is written in a query. -/
def display (a : AtomForm Term) : String :=
  a.name ++ "(" ++ String.intercalate ", " (a.terms.map Term.display) ++ ")"

/-- The tree of the tokens that an atom is written as. -/
def tree (a : AtomForm Term) : AtomTree := ⟨a.name.toList, a.terms.map Term.tree⟩

structure Writable (a : AtomForm Term) : Prop where
  name : (Token.relation a.name.toList).Fits
  terms : ∀ t ∈ a.terms, t.Writable

/-- The texts of the floats in an atom read back. -/
def ReadsBack (a : AtomForm Term) : Prop := ∀ t ∈ a.terms, t.ReadsBack

variable {a : AtomForm Term}

theorem Writable.spaced (h : a.Writable) : Spaced a.display.toList a.tree.tokens := by
  have hterms : Spaced (String.intercalate ", " (a.terms.map Term.display)).toList
      (separated (a.terms.map fun t => [t.tree.token])) :=
    Spaced.intercalate fun t ht => t.spelling_tree ▸ Spaced.token (h.terms t ht).fits
  have hopening : Spaced "(".toList [.opening] := Spaced.token (t := .opening) trivial
  have hclosing : Spaced ")".toList [.closing] := Spaced.token (t := .closing) trivial
  have hatom := (((Spaced.token h.name).append hopening).append hterms).append hclosing
  have htokens : a.tree.tokens = [.relation a.name.toList] ++ [.opening] ++
      separated (a.terms.map fun t => [t.tree.token]) ++ [.closing] := by
    simp [AtomTree.tokens, tree, Function.comp_def]
  rw [htokens, display, String.toList_append, String.toList_append, String.toList_append]
  exact hatom

theorem Writable.form_tree (h : a.Writable) (hread : a.ReadsBack) : a.tree.form = a := by
  obtain ⟨name, terms⟩ := a
  have hterms : (terms.map Term.tree).map TermTree.term = terms := by
    rw [List.map_map]
    exact (List.map_congr_left fun t ht => (h.terms t ht).term_tree (hread t ht)).trans
      (List.map_id terms)
  rw [AtomTree.form, tree, String.ofList_toList, hterms]

/-- A number among the tokens of an atom is one of its terms. -/
theorem Writable.length_le (h : a.Writable) {digits : List Char}
    (hmem : .number digits ∈ a.tree.tokens) (hpoint : '.' ∉ digits) :
    (digits.filter Char.isDigit).length ≤ Literal.digitLimit := by
  simp only [AtomTree.tokens, List.cons_append, List.mem_cons, List.mem_append, reduceCtorEq,
    false_or, List.not_mem_nil, or_false] at hmem
  obtain ⟨p, hp, hdigits⟩ := exists_of_mem_separated (by simp) hmem
  obtain ⟨x, hx, rfl⟩ := List.mem_map.mp hp
  obtain ⟨t, ht, rfl⟩ := List.mem_map.mp hx
  have hnumber : t.tree = .number digits :=
    TermTree.token_inj (List.mem_singleton.mp hdigits).symm
  exact (h.terms t ht).length_le hnumber hpoint

end AtomForm

/-! ### Queries -/

namespace QueryForm

/-- A query with a body as it is written. -/
def display (q : QueryForm Term) : String :=
  q.head.display ++ " :- " ++ String.intercalate ", " (q.body.map AtomForm.display) ++ "."

/-- The tree of the tokens that a query is written as. -/
def tree (q : QueryForm Term) : QueryTree := ⟨q.head.tree, q.body.map AtomForm.tree⟩

structure Writable (q : QueryForm Term) : Prop where
  head : q.head.Writable
  body : ∀ a ∈ q.body, a.Writable

/-- The texts of the floats in a query read back. -/
structure ReadsBack (q : QueryForm Term) : Prop where
  head : q.head.ReadsBack
  body : ∀ a ∈ q.body, a.ReadsBack

variable {q : QueryForm Term}

theorem Writable.spaced (h : q.Writable) : Spaced q.display.toList q.tree.tokens := by
  have hbody : Spaced (String.intercalate ", " (q.body.map AtomForm.display)).toList
      (separated (q.body.map fun a => a.tree.tokens)) :=
    Spaced.intercalate fun a ha => (h.body a ha).spaced
  have hspace : Spaced " ".toList [] := Spaced.space (c := ' ') rfl
  have harrow : Spaced " :- ".toList [.arrow] :=
    (hspace.append (Spaced.token (t := .arrow) trivial)).append hspace
  have hdot : Spaced ".".toList [.dot] := Spaced.token (t := .dot) trivial
  have hquery := ((h.head.spaced.append harrow).append hbody).append hdot
  have htokens : q.tree.tokens = q.head.tree.tokens ++ [.arrow] ++
      separated (q.body.map fun a => a.tree.tokens) ++ [.dot] := by
    simp [QueryTree.tokens, tree, Function.comp_def]
  rw [htokens, display, String.toList_append, String.toList_append, String.toList_append]
  exact hquery

/-- The tree that a query is written as is read as this query. -/
theorem Writable.form_tree (h : q.Writable) (hread : q.ReadsBack) : q.tree.form = q := by
  obtain ⟨head, body⟩ := q
  have hbody : (body.map AtomForm.tree).map AtomTree.form = body := by
    rw [List.map_map]
    exact (List.map_congr_left fun a ha => (h.body a ha).form_tree (hread.body a ha)).trans
      (List.map_id body)
  rw [QueryTree.form, tree, h.head.form_tree hread.head, hbody]

theorem Writable.shortIntegers (h : q.Writable) : ShortIntegers q.tree.tokens := by
  intro digits hmem hpoint
  simp only [QueryTree.tokens, List.cons_append, List.append_assoc, List.mem_append,
    List.mem_cons, reduceCtorEq, false_or, List.not_mem_nil, or_false] at hmem
  rcases hmem with hmem | hmem
  · exact h.head.length_le hmem hpoint
  · obtain ⟨p, hp, hdigits⟩ := exists_of_mem_separated (by simp) hmem
    obtain ⟨x, hx, rfl⟩ := List.mem_map.mp hp
    obtain ⟨a, ha, rfl⟩ := List.mem_map.mp hx
    exact (h.body a ha).length_le hdigits hpoint

/-- A query that is written is parsed. -/
theorem Writable.parseOne_display (h : q.Writable) (hread : q.ReadsBack) :
    parseOne q.display = .ok q := by
  have hparse := parseOne_of_spaced h.spaced h.shortIntegers
  rwa [String.ofList_toList, h.form_tree hread] at hparse

end QueryForm

/-! ### Resolving -/

theorem Head.ofTerms?_variables (predicate : String) (vars : List String) :
    Head.ofTerms? predicate (vars.map .variable) = .ok ⟨predicate, vars⟩ := by
  have hnone : (vars.map Term.variable).find? (fun t => !t.isVariable) = none := by
    simp [Term.isVariable, Term.asVariable]
  rw [Head.ofTerms?, hnone]
  simp [List.filterMap_map, Function.comp_def, Term.asVariable]

theorem Atom.bound?_of_relation {a : Atom} {r : Relation} (h : a.relation = some r) :
    Atom.bound? a.predicate a.terms r = .ok a := by
  obtain ⟨predicate, terms, relation, harity⟩ := a
  subst h
  rw [Atom.bound?, dif_pos (harity r rfl)]

namespace Query

/-- A query with its names as they are written. -/
def form (q : Query) : QueryForm Term :=
  ⟨⟨q.head.predicate, q.head.vars.map .variable⟩, q.body.map fun a => ⟨a.predicate, a.terms⟩⟩

variable {q : Query}

theorem display_eq_display_form (h : q.body ≠ []) : q.display = q.form.display := by
  obtain ⟨head, body⟩ := q
  have hhead : head.display = AtomForm.display ⟨head.predicate, head.vars.map .variable⟩ := by
    rw [Head.display, AtomForm.display, List.map_map]
    exact congrArg (fun vars => head.predicate ++ "(" ++ String.intercalate ", " vars ++ ")")
      (List.map_id head.vars).symm
  cases body with
  | nil => exact absurd rfl h
  | cons a as =>
      rw [Query.display, QueryForm.display, form, hhead, List.map_map]
      rfl

theorem resolveHead_form (q : Query) : q.form.resolveHead .ok = .ok q.head := by
  rw [QueryForm.resolveHead, mapM_ok]
  exact Head.ofTerms?_variables q.head.predicate q.head.vars

/-- A form is resolved to the query that it is the form of, if its names stand for the
relations of this query. -/
theorem resolve_form {find : String → Option Relation}
    (h : ∀ a ∈ q.body, ∃ r, find a.predicate = some r ∧ a.relation = some r) :
    q.form.resolve find .ok = .ok q := by
  rw [QueryForm.resolve, resolveHead_form]
  refine bind_eq_ok_iff.mpr ⟨q.head, rfl, bind_eq_ok_iff.mpr ⟨q.body, ?_, rfl⟩⟩
  refine mapM_map_eq_ok fun a ha => ?_
  obtain ⟨r, hfind, hrelation⟩ := h a ha
  dsimp only
  rw [hfind, mapM_ok]
  exact Atom.bound?_of_relation hrelation

theorem unbound_form (q : Query) :
    q.form.unbound = .ok ⟨q.head, q.body.map fun a => Atom.free a.predicate a.terms⟩ := by
  rw [QueryForm.unbound, resolveHead_form]
  refine bind_eq_ok_iff.mpr ⟨q.head, rfl, ?_⟩
  rw [form, List.map_map]
  rfl

/-- Writing a query and parsing it are inverse. A query with a body is parsed as it was
written, if its names are such as the grammar has, its texts hold neither apostrophes
nor backslashes, its integers have few enough digits, and its floats are finite, have
no exponent and read back. What is parsed is resolved to the same head and the same
atoms, and where its names stand for the relations of the query, to the query. -/
theorem display_reads_back (hbody : q.body ≠ []) (hq : q.form.Writable)
    (hread : q.form.ReadsBack) :
    QueryForm.parseOne q.display = .ok q.form ∧
    q.form.unbound = .ok ⟨q.head, q.body.map fun a => Atom.free a.predicate a.terms⟩ ∧
    ∀ find : String → Option Relation,
      (∀ a ∈ q.body, ∃ r, find a.predicate = some r ∧ a.relation = some r) →
      q.form.resolve find .ok = .ok q := by
  refine ⟨?_, unbound_form q, fun _ hfind => resolve_form hfind⟩
  rw [display_eq_display_form hbody]
  exact hq.parseOne_display hread

/-- A query with a text that looks like the rest of a query, negative numbers, a float
that is whole, a variable twice in the head, and an atom without terms. -/
def mixedTerms : Query where
  head := ⟨"Answer", ["x", "y1", "x"]⟩
  body :=
    [{ predicate := "R_1"
       terms := [.variable "x", .constant (.text "a, (b). % \"c\"\n"), .constant (.int (-12)),
         .variable "y1", .constant (.float (-0.5)), .constant (.float 3)]
       relation := some ⟨none, .together, ["a", "b", "c", "d", "e", "f"], [], 0, nofun,
         Relation.definite_nil⟩
       arity_eq := by rintro _ ⟨⟩; rfl },
     { predicate := "S"
       terms := []
       relation := some ⟨none, .together, [], [], 0, nofun, Relation.definite_nil⟩
       arity_eq := by rintro _ ⟨⟩; rfl }]

theorem display_reads_back_mixedTerms :
    QueryForm.parseOne
      "Answer(x, y1, x) :- R_1(x, 'a, (b). % \"c\"\n', -12, y1, -0.5, 3.0), S()." =
        .ok mixedTerms.form ∧
      ∃ find, mixedTerms.form.resolve find .ok = .ok mixedTerms := by
  have hrelation : ∀ name, Token.next? name = some (.relation name, []) →
      (Token.relation name).Fits := fun _ => Token.fits_next
  have hvariable : ∀ name, Token.next? name = some (.variable name, []) →
      (Token.variable name).Fits := fun _ => Token.fits_next
  have hx : (Token.variable "x".toList).Fits := hvariable _ (by decide)
  have hy : (Token.variable "y1".toList).Fits := hvariable _ (by decide)
  have hhalf : Token.IsPositional (-0.5) :=
    ⟨⟨true, 2 ^ 52, -53, by decide +kernel⟩, by decide +kernel⟩
  have hthree : Token.IsPositional 3 :=
    ⟨⟨false, 3 * 2 ^ 51, -51, by decide +kernel⟩, by decide +kernel⟩
  have htext : Text.apostrophe ∉ "a, (b). % \"c\"\n".toList ∧
      '\\' ∉ "a, (b). % \"c\"\n".toList := by decide
  have htwelve : (Nat.toDigits 10 (Int.natAbs (-12))).length ≤ Literal.digitLimit := by decide
  have hq : mixedTerms.form.Writable := by
    refine ⟨⟨hrelation _ (by decide), ?_⟩, ?_⟩
    · simp only [form, mixedTerms, List.map_cons, List.map_nil, List.forall_mem_cons]
      exact ⟨hx, hy, hx, by simp⟩
    · simp only [form, mixedTerms, List.map_cons, List.map_nil, List.forall_mem_cons]
      refine ⟨⟨hrelation _ (by decide), ?_⟩, ⟨hrelation _ (by decide), by simp⟩, by simp⟩
      simp only [List.forall_mem_cons]
      exact ⟨hx, htext, htwelve, hy, hhalf, hthree, by simp⟩
  have hfloats : ∀ x ∈ [-0.5, 3], Literal.float? (FloatStyle.cell.write x).toList = some x := by
    decide +kernel
  have hread : mixedTerms.form.ReadsBack := by
    constructor <;> simp [form, mixedTerms, AtomForm.ReadsBack, Term.ReadsBack, hfloats]
  obtain ⟨hparse, -, hresolve⟩ := display_reads_back (by simp [mixedTerms]) hq hread
  refine ⟨?_, fun name => (mixedTerms.body.find? fun a => a.predicate == name).bind Atom.relation,
    hresolve _ ?_⟩
  · have hdisplay : mixedTerms.display =
      "Answer(x, y1, x) :- R_1(x, 'a, (b). % \"c\"\n', -12, y1, -0.5, 3.0), S()." := by
      decide +kernel
    rwa [← hdisplay]
  · simp only [mixedTerms, List.forall_mem_cons]
    exact ⟨⟨_, rfl, rfl⟩, ⟨_, rfl, rfl⟩, by simp⟩

end Query

end Conjunctive
