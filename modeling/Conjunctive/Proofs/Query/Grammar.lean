import Conjunctive.Query.Parse
import Mathlib.Data.List.Basic

/-!
# The grammar of query texts

The syntax trees of the grammar (`TermTree`, `AtomTree`, `QueryTree`) have tokens,
which they derive, and forms, which is what is read from them. Reading token by
token reads exactly the derived sequences: over the tokens of trees it comes to
their forms (`Reading.leads_program`), and whatever it has read at some stage are
the tokens of trees and of a part of one (`Reading.Spells`), which each step
keeps. No sequence is derived by different trees (`programTokens_inj`), since the
tokens of a tree tell where it ends.
-/

namespace Conjunctive

/-- A term: a variable, a number or a string. -/
inductive TermTree where
  | variable (name : List Char)
  | number (digits : List Char)
  | string (quote : Char) (body : List Char)

/-- An atom: a relation name, and terms in parentheses with commas between them. -/
structure AtomTree where
  name : List Char
  terms : List TermTree

/-- A query: an atom as its head, an arrow, atoms with commas between them as its
body, which may be empty, and a dot. -/
structure QueryTree where
  head : AtomTree
  body : List AtomTree

/-- Parts with a comma between each two. -/
def separated : List (List Token) → List Token
  | [] => []
  | p :: ps => p ++ ps.flatMap fun p => .comma :: p

theorem separated_cons (p : List Token) (ps : List (List Token)) :
    separated (p :: ps) = p ++ ps.flatMap fun p => .comma :: p := rfl

theorem separated_append_singleton (ps : List (List Token)) (p : List Token) :
    separated (ps ++ [p]) = (ps.flatMap fun p => p ++ [.comma]) ++ p := by
  cases ps with
  | nil => simp [separated]
  | cons q ps =>
      have hmove : ∀ q : List Token, q ++ (ps.flatMap fun p => .comma :: p) ++ [.comma] =
          (q :: ps).flatMap fun p => p ++ [.comma] := by
        induction ps with
        | nil => simp
        | cons r ps ih =>
            intro q
            rw [List.flatMap_cons, List.flatMap_cons, ← ih r]
            simp
      rw [← hmove, List.cons_append, separated, List.flatMap_append]
      simp

theorem separated_append_cons (ps : List (List Token)) (p : List Token)
    (qs : List (List Token)) :
    separated (ps ++ p :: qs) =
      (ps.flatMap fun p => p ++ [.comma]) ++ p ++ qs.flatMap fun p => .comma :: p := by
  rw [← separated_append_singleton]
  cases ps <;> simp [separated]

/-- A token among separated parts is one of a part, unless it is a comma. -/
theorem exists_of_mem_separated {ps : List (List Token)} {t : Token} (ht : t ≠ .comma)
    (h : t ∈ separated ps) : ∃ p ∈ ps, t ∈ p := by
  cases ps with
  | nil => cases h
  | cons p ps =>
      rw [separated_cons, List.mem_append, List.mem_flatMap] at h
      rcases h with h | ⟨q, hq, h⟩
      · exact ⟨p, List.mem_cons_self .., h⟩
      · exact ⟨q, List.mem_cons_of_mem p hq, (List.mem_cons.mp h).resolve_left ht⟩

namespace TermTree

def token : TermTree → Token
  | .variable name => .variable name
  | number digits => .number digits
  | string quote body => .string quote body

def term : TermTree → Term
  | .variable name => .variable (String.ofList name)
  | number digits => .constant (Token.numberConstant digits)
  | string quote body => .constant (.text (Token.decode quote body))

/-- A token spells a term if it is the token of a tree. -/
theorem term?_eq_some_iff {t : Token} {x : Term} :
    t.term? = some x ↔ ∃ tree : TermTree, tree.token = t ∧ tree.term = x := by
  constructor
  · intro h
    cases t with
    | «variable» name => exact ⟨.variable name, rfl, Option.some.inj h⟩
    | number digits => exact ⟨.number digits, rfl, Option.some.inj h⟩
    | string quote body => exact ⟨.string quote body, rfl, Option.some.inj h⟩
    | _ => cases h
  · rintro ⟨tree, rfl, rfl⟩
    cases tree <;> rfl

end TermTree

namespace AtomTree

/-- The tokens that an atom derives. -/
def tokens (a : AtomTree) : List Token :=
  .relation a.name :: .opening :: separated (a.terms.map fun x => [x.token]) ++ [.closing]

/-- The atom as it is read. -/
def form (a : AtomTree) : AtomForm Term := ⟨String.ofList a.name, a.terms.map TermTree.term⟩

end AtomTree

namespace QueryTree

/-- The tokens that a query derives. -/
def tokens (q : QueryTree) : List Token :=
  q.head.tokens ++ .arrow :: separated (q.body.map AtomTree.tokens) ++ [.dot]

/-- The query as it is read. -/
def form (q : QueryTree) : QueryForm Term := ⟨q.head.form, q.body.map AtomTree.form⟩

end QueryTree

/-- The tokens that a text of queries derives. -/
def programTokens (qs : List QueryTree) : List Token := qs.flatMap QueryTree.tokens

namespace Reading

/-- Some tokens lead from one reading to another. -/
def Leads (r : Reading) (ts : List Token) (r' : Reading) : Prop := ts.foldlM step r = some r'

theorem leads_nil (r : Reading) : r.Leads [] r := rfl

theorem Leads.cons {r r' r'' : Reading} {t : Token} {ts : List Token} (ht : r.step t = some r')
    (hts : r'.Leads ts r'') : r.Leads (t :: ts) r'' := by
  rw [Leads, List.foldlM_cons, ht]
  exact hts

theorem Leads.append {r r' r'' : Reading} {ts us : List Token} (hts : r.Leads ts r')
    (hus : r'.Leads us r'') : r.Leads (ts ++ us) r'' := by
  rw [Leads, List.foldlM_append, hts]
  exact hus

/-- What the tokens of each item do to a reading, those of a list do one by one. -/
theorem leads_flatMap {α : Type} {f : α → List Token} {r : List α → Reading}
    (h : ∀ done x, (r done).Leads (f x) (r (done ++ [x]))) (done xs : List α) :
    (r done).Leads (xs.flatMap f) (r (done ++ xs)) := by
  induction xs generalizing done with
  | nil =>
      rw [List.append_nil]
      exact leads_nil (r done)
  | cons x xs ih =>
      have hrest := ih (done ++ [x])
      rw [List.append_assoc] at hrest
      exact (h done x).append hrest

/-! ### Reading the tokens of trees -/

variable {queries : List (QueryForm Term)}

theorem step_opened (place : Place) (n : String) (x : TermTree) :
    step ⟨queries, .opened place n⟩ x.token = some ⟨queries, .term place n [x.term]⟩ := by
  cases x <;> rfl

theorem step_moreTerms (place : Place) (n : String) (terms : List Term) (x : TermTree) :
    step ⟨queries, .moreTerms place n terms⟩ x.token =
      some ⟨queries, .term place n (terms ++ [x.term])⟩ := by
  cases x <;> rfl

/-- From the name of an atom on, its tokens lead to its form. -/
theorem leads_atom (place : Place) (a : AtomTree) :
    Leads ⟨queries, .name place (String.ofList a.name)⟩ a.tokens.tail
      ⟨queries, .afterAtom place a.form⟩ := by
  obtain ⟨name, terms⟩ := a
  refine .cons rfl ?_
  cases terms with
  | nil => exact .cons rfl (leads_nil _)
  | cons x xs =>
      have hmore : ∀ (done : List TermTree) (y : TermTree),
          Leads ⟨queries, .term place (String.ofList name) (done.map TermTree.term)⟩
            [.comma, y.token]
            ⟨queries, .term place (String.ofList name) ((done ++ [y]).map TermTree.term)⟩ := by
        intro done y
        rw [List.map_append]
        exact .cons rfl (.cons (step_moreTerms place _ _ y) (leads_nil _))
      have hxs := leads_flatMap hmore [x] xs
      change Leads _ (separated ((x :: xs).map fun y => [y.token]) ++ [.closing]) _
      rw [List.map_cons, separated_cons, List.flatMap_map]
      exact .append (.cons (step_opened place _ x) hxs) (.cons rfl (leads_nil _))

theorem leads_query (q : QueryTree) :
    Leads ⟨queries, .start⟩ q.tokens ⟨queries ++ [q.form], .start⟩ := by
  obtain ⟨head, body⟩ := q
  have hhead : Leads ⟨queries, .start⟩ head.tokens ⟨queries, .head head.form⟩ :=
    .cons rfl (leads_atom .head head)
  cases body with
  | nil => exact .append (hhead.append (.cons rfl (leads_nil _))) (.cons rfl (leads_nil _))
  | cons a as =>
      have hfirst : Leads ⟨queries, .arrow head.form⟩ a.tokens
          ⟨queries, .atom head.form [a.form]⟩ :=
        .cons rfl (leads_atom (.body head.form []) a)
      have hmore : ∀ (done : List AtomTree) (b : AtomTree),
          Leads ⟨queries, .atom head.form (done.map AtomTree.form)⟩ (.comma :: b.tokens)
            ⟨queries, .atom head.form ((done ++ [b]).map AtomTree.form)⟩ := by
        intro done b
        rw [List.map_append]
        exact .cons rfl (.cons rfl (leads_atom (.body head.form (done.map AtomTree.form)) b))
      have hbody := hfirst.append (leads_flatMap hmore [a] as)
      rw [QueryTree.tokens, List.map_cons, separated_cons, List.flatMap_map]
      exact .append (hhead.append (.cons rfl hbody)) (.cons rfl (leads_nil _))

/-- The tokens of queries lead to their forms. -/
theorem leads_program (qs : List QueryTree) :
    Leads .initial (programTokens qs) ⟨qs.map QueryTree.form, .start⟩ := by
  refine leads_flatMap (r := fun done => ⟨done.map QueryTree.form, .start⟩) (fun done q => ?_) [] qs
  rw [List.map_append]
  exact leads_query q

end Reading

/-! ### What was read at a stage -/

/-- The tokens of the query at hand that come before an atom. -/
def Place.Spells : Place → List Token → Prop
  | .head, ts => ts = []
  | .body h before, ts => ∃ (a : AtomTree) (as : List AtomTree), a.form = h ∧
      as.map AtomTree.form = before ∧
      ts = a.tokens ++ .arrow :: as.flatMap fun b => b.tokens ++ [.comma]

/-- The tokens of the query at hand up to the opening parenthesis of an atom. -/
def Place.SpellsOpened (place : Place) (n : String) (ts : List Token) : Prop :=
  ∃ before name, place.Spells before ∧ String.ofList name = n ∧
    ts = before ++ [.relation name, .opening]

/-- The tokens that were read of the query at hand. -/
def Stage.Spells : Stage → List Token → Prop
  | .start, ts => ts = []
  | .name place n, ts => ∃ before name, place.Spells before ∧ String.ofList name = n ∧
      ts = before ++ [.relation name]
  | .opened place n, ts => place.SpellsOpened n ts
  | .term place n terms, ts => ∃ (opened : List Token) (xs : List TermTree) (x : TermTree),
      place.SpellsOpened n opened ∧ (xs ++ [x]).map TermTree.term = terms ∧
      ts = opened ++ separated ((xs ++ [x]).map fun x => [x.token])
  | .moreTerms place n terms, ts => ∃ (opened : List Token) (xs : List TermTree),
      place.SpellsOpened n opened ∧ xs.map TermTree.term = terms ∧
      ts = opened ++ xs.flatMap fun x => [x.token, .comma]
  | .head h, ts => ∃ a : AtomTree, a.form = h ∧ ts = a.tokens
  | .arrow h, ts => ∃ a : AtomTree, a.form = h ∧ ts = a.tokens ++ [.arrow]
  | .atom h body, ts => ∃ (a : AtomTree) (as : List AtomTree) (b : AtomTree), a.form = h ∧
      (as ++ [b]).map AtomTree.form = body ∧
      ts = a.tokens ++ .arrow :: separated ((as ++ [b]).map AtomTree.tokens)
  | .moreAtoms h body, ts => ∃ (a : AtomTree) (as : List AtomTree), a.form = h ∧
      as.map AtomTree.form = body ∧
      ts = a.tokens ++ .arrow :: as.flatMap fun b => b.tokens ++ [.comma]

/-- What was read are the tokens of the queries that are complete, and then those of
the query at hand. -/
def Reading.Spells (r : Reading) (ts : List Token) : Prop :=
  ∃ (qs : List QueryTree) (us : List Token), qs.map QueryTree.form = r.queries ∧
    r.stage.Spells us ∧ ts = programTokens qs ++ us

/-- When an atom is complete, its tokens follow those before it. -/
theorem Place.Spells.afterAtom {place : Place} {before : List Token} (h : place.Spells before)
    (a : AtomTree) : (Stage.afterAtom place a.form).Spells (before ++ a.tokens) := by
  cases place with
  | head =>
      cases h
      exact ⟨a, rfl, rfl⟩
  | body head forms =>
      obtain ⟨b, as, rfl, rfl, rfl⟩ := h
      refine ⟨b, as, a, rfl, List.map_append, ?_⟩
      rw [List.map_append, List.map_singleton, separated_append_singleton, List.flatMap_map]
      simp

/-- The closing parenthesis completes an atom. -/
theorem Place.SpellsOpened.afterAtom {place : Place} {n : String} {opened : List Token}
    (h : place.SpellsOpened n opened) (xs : List TermTree) :
    (Stage.afterAtom place ⟨n, xs.map TermTree.term⟩).Spells
      (opened ++ separated (xs.map fun x => [x.token]) ++ [.closing]) := by
  obtain ⟨before, name, hbefore, rfl, rfl⟩ := h
  have htokens : before ++ [.relation name, .opening] ++ separated (xs.map fun x => [x.token]) ++
      [.closing] = before ++ AtomTree.tokens ⟨name, xs⟩ := by
    simp [AtomTree.tokens]
  rw [htokens]
  exact hbefore.afterAtom ⟨name, xs⟩

namespace Reading

section Step

variable {qs : List QueryTree} {us : List Token} {t : Token} {r : Reading}

/-- A token goes on with the query at hand. -/
theorem spells_go {s : Stage} (h : s.Spells (us ++ [t])) :
    Spells ⟨qs.map QueryTree.form, s⟩ (programTokens qs ++ us ++ [t]) :=
  ⟨qs, us ++ [t], rfl, h, List.append_assoc _ _ _⟩

/-- A token ends the query at hand. -/
theorem spells_done {q : QueryTree} (h : q.tokens = us ++ [t]) :
    Spells ⟨qs.map QueryTree.form ++ [q.form], .start⟩ (programTokens qs ++ us ++ [t]) := by
  refine ⟨qs ++ [q], [], List.map_append, rfl, ?_⟩
  rw [programTokens, programTokens, List.flatMap_append, List.flatMap_singleton, h,
    List.append_assoc, List.append_nil]

theorem spells_step_opened {place : Place} {n : String} (h : (Stage.opened place n).Spells us)
    (ht : step ⟨qs.map QueryTree.form, .opened place n⟩ t = some r) :
    r.Spells (programTokens qs ++ us ++ [t]) := by
  by_cases hclosing : t = .closing
  · subst hclosing
    cases ht
    exact spells_go (by simpa [separated] using Place.SpellsOpened.afterAtom h [])
  · have hterm : t.term?.bind (fun x => some ⟨qs.map QueryTree.form, .term place n [x]⟩) =
        some r := by
      rw [← ht]
      cases t <;> first | rfl | exact absurd rfl hclosing
    obtain ⟨x, hx, hr⟩ := Option.bind_eq_some_iff.mp hterm
    obtain ⟨x, rfl, rfl⟩ := TermTree.term?_eq_some_iff.mp hx
    cases hr
    exact spells_go ⟨us, [], x, h, rfl, by simp [separated]⟩

theorem spells_step_term {place : Place} {n : String} {terms : List Term}
    (h : (Stage.term place n terms).Spells us)
    (ht : step ⟨qs.map QueryTree.form, .term place n terms⟩ t = some r) :
    r.Spells (programTokens qs ++ us ++ [t]) := by
  obtain ⟨opened, xs, x, hopened, rfl, rfl⟩ := h
  cases t with
  | comma =>
      cases ht
      refine spells_go ⟨opened, xs ++ [x], hopened, rfl, ?_⟩
      rw [List.map_append, List.map_singleton, separated_append_singleton, List.flatMap_map]
      simp
  | closing =>
      cases ht
      exact spells_go (hopened.afterAtom (xs ++ [x]))
  | _ => cases ht

theorem spells_step_moreTerms {place : Place} {n : String} {terms : List Term}
    (h : (Stage.moreTerms place n terms).Spells us)
    (ht : step ⟨qs.map QueryTree.form, .moreTerms place n terms⟩ t = some r) :
    r.Spells (programTokens qs ++ us ++ [t]) := by
  obtain ⟨opened, xs, hopened, rfl, rfl⟩ := h
  obtain ⟨x, hx, hr⟩ := Option.bind_eq_some_iff.mp ht
  obtain ⟨x, rfl, rfl⟩ := TermTree.term?_eq_some_iff.mp hx
  cases hr
  refine spells_go ⟨opened, xs, x, hopened, List.map_append, ?_⟩
  rw [List.map_append, List.map_singleton, separated_append_singleton, List.flatMap_map]
  simp

theorem spells_step_arrow {h : AtomForm Term} (hus : (Stage.arrow h).Spells us)
    (ht : step ⟨qs.map QueryTree.form, .arrow h⟩ t = some r) :
    r.Spells (programTokens qs ++ us ++ [t]) := by
  obtain ⟨a, rfl, rfl⟩ := hus
  cases t with
  | dot =>
      cases ht
      exact spells_done (q := ⟨a, []⟩) (by simp [QueryTree.tokens, separated])
  | relation name =>
      cases ht
      exact spells_go ⟨_, name, ⟨a, [], rfl, rfl, rfl⟩, rfl, by simp⟩
  | _ => cases ht

theorem spells_step_atom {h : AtomForm Term} {body : List (AtomForm Term)}
    (hus : (Stage.atom h body).Spells us)
    (ht : step ⟨qs.map QueryTree.form, .atom h body⟩ t = some r) :
    r.Spells (programTokens qs ++ us ++ [t]) := by
  obtain ⟨a, as, b, rfl, rfl, rfl⟩ := hus
  cases t with
  | comma =>
      cases ht
      refine spells_go ⟨a, as ++ [b], rfl, rfl, ?_⟩
      rw [List.map_append, List.map_singleton, separated_append_singleton, List.flatMap_map]
      simp
  | dot =>
      cases ht
      exact spells_done (q := ⟨a, as ++ [b]⟩) rfl
  | _ => cases ht

end Step

/-- One step keeps to trees: the token goes on with the query at hand, or ends it. -/
theorem Spells.step {r r' : Reading} {t : Token} {ts : List Token} (h : r.Spells ts)
    (ht : r.step t = some r') : r'.Spells (ts ++ [t]) := by
  obtain ⟨queries, stage⟩ := r
  obtain ⟨qs, us, rfl, hus, rfl⟩ := h
  cases stage with
  | start =>
      cases hus
      cases t with
      | relation name =>
          cases ht
          exact spells_go ⟨[], name, rfl, rfl, rfl⟩
      | _ => cases ht
  | name place n =>
      obtain ⟨before, name, hbefore, rfl, rfl⟩ := hus
      cases t with
      | opening =>
          cases ht
          exact spells_go ⟨before, name, hbefore, rfl, List.append_assoc _ _ _⟩
      | _ => cases ht
  | opened place n => exact spells_step_opened hus ht
  | term place n terms => exact spells_step_term hus ht
  | moreTerms place n terms => exact spells_step_moreTerms hus ht
  | head h =>
      obtain ⟨a, rfl, rfl⟩ := hus
      cases t with
      | arrow =>
          cases ht
          exact spells_go ⟨a, rfl, rfl⟩
      | _ => cases ht
  | arrow h => exact spells_step_arrow hus ht
  | atom h body => exact spells_step_atom hus ht
  | moreAtoms h body =>
      obtain ⟨a, as, rfl, rfl, rfl⟩ := hus
      cases t with
      | relation name =>
          cases ht
          exact spells_go ⟨_, name, ⟨a, as, rfl, rfl, rfl⟩, rfl, rfl⟩
      | _ => cases ht

/-- Whatever was read are the tokens of trees. -/
theorem Spells.leads {r r' : Reading} {ts us : List Token} (h : r.Spells ts)
    (hus : r.Leads us r') : r'.Spells (ts ++ us) := by
  induction us generalizing r ts with
  | nil =>
      cases hus
      rwa [List.append_nil]
  | cons u us ih =>
      rw [Leads, List.foldlM_cons] at hus
      obtain ⟨r'', hstep, hrest⟩ := Option.bind_eq_some_iff.mp hus
      have hus' := ih (h.step hstep) hrest
      rwa [List.append_assoc] at hus'

/-- Tokens lead to complete queries if and only if they are those of trees with these
queries as forms. -/
theorem leads_start_iff {ts : List Token} {queries : List (QueryForm Term)} :
    Leads .initial ts ⟨queries, .start⟩ ↔
      ∃ qs, programTokens qs = ts ∧ qs.map QueryTree.form = queries := by
  constructor
  · intro h
    have hinitial : Spells .initial [] := ⟨[], [], rfl, rfl, rfl⟩
    obtain ⟨qs, us, hqs, hus, hts⟩ := hinitial.leads h
    cases hus
    exact ⟨qs, by simpa using hts.symm, hqs⟩
  · rintro ⟨qs, rfl, rfl⟩
    exact leads_program qs

end Reading

/-! ### One tree for each sequence -/

/-- Where the tokens of items tell where each item ends, and the token that follows a
list is no comma, the tokens of a list of items tell where the list ends. -/
theorem flatMap_comma_inj {α : Type} {f : α → List Token}
    (hf : ∀ a b ts us, f a ++ ts = f b ++ us → a = b ∧ ts = us) {last : Token}
    (hlast : last ≠ .comma) {xs ys : List α} {ts us : List Token}
    (h : (xs.flatMap fun a => .comma :: f a) ++ last :: ts =
      (ys.flatMap fun a => .comma :: f a) ++ last :: us) : xs = ys ∧ ts = us := by
  induction xs generalizing ys with
  | nil =>
      cases ys with
      | nil => exact ⟨rfl, (List.cons.inj h).2⟩
      | cons y ys => exact absurd (List.cons.inj h).1 hlast
  | cons x xs ih =>
      cases ys with
      | nil => exact absurd (List.cons.inj h).1.symm hlast
      | cons y ys =>
          rw [List.flatMap_cons, List.flatMap_cons, List.append_assoc, List.append_assoc] at h
          obtain ⟨rfl, hrest⟩ := hf x y _ _ (List.cons.inj h).2
          obtain ⟨rfl, hts⟩ := ih hrest
          exact ⟨rfl, hts⟩

theorem separated_inj {α : Type} {f : α → List Token}
    (hf : ∀ a b ts us, f a ++ ts = f b ++ us → a = b ∧ ts = us) {last : Token}
    (hlast : last ≠ .comma) (hfirst : ∀ a ts us, f a ++ ts ≠ last :: us) {xs ys : List α}
    {ts us : List Token}
    (h : separated (xs.map f) ++ last :: ts = separated (ys.map f) ++ last :: us) :
    xs = ys ∧ ts = us := by
  cases xs with
  | nil =>
      cases ys with
      | nil => exact ⟨rfl, (List.cons.inj h).2⟩
      | cons y ys =>
          rw [List.map_cons, separated_cons, List.append_assoc] at h
          exact absurd h.symm (hfirst y _ _)
  | cons x xs =>
      cases ys with
      | nil =>
          rw [List.map_cons, separated_cons, List.append_assoc] at h
          exact absurd h (hfirst x _ _)
      | cons y ys =>
          rw [List.map_cons, separated_cons, List.flatMap_map, List.append_assoc, List.map_cons,
            separated_cons, List.flatMap_map, List.append_assoc] at h
          obtain ⟨rfl, hrest⟩ := hf x y _ _ h
          obtain ⟨rfl, hts⟩ := flatMap_comma_inj hf hlast hrest
          exact ⟨rfl, hts⟩

theorem TermTree.token_inj {x y : TermTree} (h : x.token = y.token) : x = y := by
  cases x <;> cases y <;> cases h <;> rfl

theorem AtomTree.tokens_inj {a b : AtomTree} {ts us : List Token}
    (h : a.tokens ++ ts = b.tokens ++ us) : a = b ∧ ts = us := by
  obtain ⟨name, xs⟩ := a
  obtain ⟨name', ys⟩ := b
  simp only [tokens, List.cons_append, List.append_assoc, List.cons.injEq, Token.relation.injEq,
    List.nil_append] at h
  obtain ⟨rfl, -, hterms⟩ := h
  obtain ⟨rfl, hts⟩ := separated_inj (f := fun x : TermTree => [x.token])
    (fun x y ts us h => ⟨TermTree.token_inj (List.cons.inj h).1, (List.cons.inj h).2⟩)
    (by decide) (fun x ts us h => by cases x <;> cases (List.cons.inj h).1) hterms
  exact ⟨rfl, hts⟩

theorem QueryTree.tokens_inj {p q : QueryTree} {ts us : List Token}
    (h : p.tokens ++ ts = q.tokens ++ us) : p = q ∧ ts = us := by
  obtain ⟨a, as⟩ := p
  obtain ⟨b, bs⟩ := q
  simp only [tokens, List.append_assoc, List.cons_append, List.nil_append] at h
  obtain ⟨rfl, hrest⟩ := AtomTree.tokens_inj h
  obtain ⟨rfl, hts⟩ := separated_inj (f := AtomTree.tokens) (fun _ _ _ _ => AtomTree.tokens_inj)
    (by decide) (fun a ts us h => by cases (List.cons.inj h).1) (List.cons.inj hrest).2
  exact ⟨rfl, hts⟩

/-- Different trees derive different tokens. -/
theorem programTokens_inj {ps qs : List QueryTree} (h : programTokens ps = programTokens qs) :
    ps = qs := by
  induction ps generalizing qs with
  | nil =>
      cases qs with
      | nil => rfl
      | cons q qs => cases h
  | cons p ps ih =>
      cases qs with
      | nil => cases h
      | cons q qs =>
          obtain ⟨rfl, hrest⟩ := QueryTree.tokens_inj (p := p) (q := q) h
          rw [ih hrest]

end Conjunctive
