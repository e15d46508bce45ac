import Conjunctive.Proofs.Lists
import Conjunctive.Proofs.Query.Grammar

/-!
# Gaps in queries

Queries with a gap in place of one term (`ProgramGap`), in the head of a query or in
an atom of its body, become queries when a term fills the gap. Where the tokens of
some trees have a term's token, the forms of the trees have this term in a gap, and
around the gap neither tokens nor forms depend on which term it is (`exists_gap`).
-/

namespace Conjunctive

/-- An atom with a gap among its terms. -/
structure AtomGap where
  name : String
  before : List Term
  after : List Term

/-- A query with a gap among the terms of its head or of an atom of its body. -/
inductive QueryGap where
  | inHead (atom : AtomGap) (body : List (AtomForm Term))
  | inBody (head : AtomForm Term) (before : List (AtomForm Term)) (atom : AtomGap)
    (after : List (AtomForm Term))

/-- Queries with a gap in place of a single term. -/
structure ProgramGap where
  before : List (QueryForm Term)
  query : QueryGap
  after : List (QueryForm Term)

/-- Put a term into the gap. -/
def AtomGap.fill (gap : AtomGap) (x : Term) : AtomForm Term :=
  ⟨gap.name, gap.before ++ x :: gap.after⟩

def QueryGap.fill : QueryGap → Term → QueryForm Term
  | inHead atom body, x => ⟨atom.fill x, body⟩
  | inBody head before atom after, x => ⟨head, before ++ atom.fill x :: after⟩

def ProgramGap.fill (gap : ProgramGap) (x : Term) : List (QueryForm Term) :=
  gap.before ++ gap.query.fill x :: gap.after

/-! ### Gaps in trees -/

/-- A token among those of separated items is one of an item, unless it is a comma. -/
theorem exists_of_separated_eq {α : Type} {f : α → List Token} {as : List α} {t : Token}
    {ts us : List Token} (ht : t ≠ .comma) (h : separated (as.map f) = ts ++ t :: us) :
    ∃ before a after l r,
      as = before ++ a :: after ∧ f a = l ++ t :: r ∧
      ts = (before.flatMap fun a => f a ++ [.comma]) ++ l ∧
      us = r ++ after.flatMap fun a => .comma :: f a := by
  cases as with
  | nil => exact absurd h.symm (List.append_ne_nil_of_right_ne_nil ts (List.cons_ne_nil t us))
  | cons a as =>
      rw [List.map_cons, separated_cons, List.flatMap_map] at h
      rcases append_eq_append_cons h with ⟨r, ha, rfl⟩ | ⟨l, rfl, hrest⟩
      · exact ⟨[], a, as, ts, r, rfl, ha, rfl, rfl⟩
      · obtain ⟨before, b, after, l', r, rfl, hb, rfl, rfl⟩ := exists_of_flatMap_eq hrest
        cases l' with
        | nil => exact absurd (List.cons.inj hb).1.symm ht
        | cons c l' =>
            obtain ⟨rfl, hitem⟩ := List.cons.inj hb
            refine ⟨a :: before, b, after, l', r, rfl, hitem, ?_, rfl⟩
            have hmove := separated_append_singleton ((a :: before).map f) l'
            rw [List.flatMap_map] at hmove
            rw [← hmove]
            simp [separated, List.flatMap_map]

/-- Where only what is enclosed has terms, a term is among what is enclosed. -/
theorem TermTree.exists_of_enclosed {x : TermTree} {opening closing ts ls us : List Token}
    (hopening : ∀ t ∈ opening, t.term? = none) (hclosing : ∀ t ∈ closing, t.term? = none)
    (h : opening ++ (ts ++ closing) = ls ++ x.token :: us) :
    ∃ l r, ts = l ++ x.token :: r ∧ ls = opening ++ l ∧ us = r ++ closing := by
  have hx : x.token.term? ≠ none := by
    cases x <;> exact Option.some_ne_none _
  rcases append_eq_append_cons h with ⟨r, rfl, -⟩ | ⟨l, rfl, hrest⟩
  · exact absurd (hopening x.token (by simp)) hx
  · rcases append_eq_append_cons hrest with ⟨r, rfl, rfl⟩ | ⟨r, rfl, rfl⟩
    · exact ⟨l, r, rfl, rfl, rfl⟩
    · exact absurd (hclosing x.token (by simp)) hx

/-- Between some tokens, the token of any term may stand, and this term then fills
the gap. -/
def Surround {α β : Type} (tokens : α → List Token) (form : α → β) (ts us : List Token)
    (fill : Term → β) : Prop :=
  ∀ y : TermTree, ∃ a, tokens a = ts ++ y.token :: us ∧ form a = fill y.term

/-- A term of an atom stands in a gap of its form. -/
theorem AtomTree.exists_gap {a : AtomTree} {x : TermTree} {ts us : List Token}
    (h : a.tokens = ts ++ x.token :: us) : ∃ gap : AtomGap, gap.fill x.term = a.form ∧
      Surround AtomTree.tokens AtomTree.form ts us gap.fill := by
  obtain ⟨name, terms⟩ := a
  have hopening : ∀ t ∈ [Token.relation name, .opening], t.term? = none := by simp [Token.term?]
  have hclosing : ∀ t ∈ [Token.closing], t.term? = none := by simp [Token.term?]
  obtain ⟨l, r, hterms, rfl, rfl⟩ := TermTree.exists_of_enclosed hopening hclosing h
  obtain ⟨before, y, after, l', r', rfl, hy, rfl, rfl⟩ :=
    exists_of_separated_eq (by cases x <;> simp [TermTree.token]) hterms
  obtain ⟨rfl, rfl, rfl⟩ : l' = [] ∧ y = x ∧ r' = [] := by
    rcases List.append_eq_cons_iff.mp hy.symm with ⟨rfl, hcons⟩ | ⟨_, _, hnil⟩
    · obtain ⟨hxy, rfl⟩ := List.cons.inj hcons
      exact ⟨rfl, TermTree.token_inj hxy.symm, rfl⟩
    · simp at hnil
  refine ⟨⟨String.ofList name, before.map TermTree.term, after.map TermTree.term⟩, ?_, ?_⟩
  · simp [AtomGap.fill, AtomTree.form]
  · intro z
    refine ⟨⟨name, before ++ z :: after⟩, ?_, by simp [AtomGap.fill, AtomTree.form]⟩
    rw [AtomTree.tokens, List.map_append, List.map_cons, separated_append_cons]
    simp [List.flatMap_map]

/-- A term of a query stands in a gap of its head or of an atom of its body. -/
theorem QueryTree.exists_gap {q : QueryTree} {x : TermTree} {ts us : List Token}
    (h : q.tokens = ts ++ x.token :: us) : ∃ gap : QueryGap, gap.fill x.term = q.form ∧
      Surround QueryTree.tokens QueryTree.form ts us gap.fill := by
  obtain ⟨head, body⟩ := q
  rw [QueryTree.tokens, List.append_assoc] at h
  rcases append_eq_append_cons h with ⟨r, hhead, rfl⟩ | ⟨l, rfl, hrest⟩
  · obtain ⟨gap, hgap, hsurround⟩ := AtomTree.exists_gap hhead
    refine ⟨.inHead gap (body.map AtomTree.form), congrArg (QueryForm.mk · _) hgap, fun y => ?_⟩
    obtain ⟨b, hb, hform⟩ := hsurround y
    refine ⟨⟨b, body⟩, ?_, congrArg (QueryForm.mk · _) hform⟩
    simp [QueryTree.tokens, hb]
  · have harrow : ∀ t ∈ [Token.arrow], t.term? = none := by simp [Token.term?]
    have hdot : ∀ t ∈ [Token.dot], t.term? = none := by simp [Token.term?]
    obtain ⟨l, r, hbody, rfl, rfl⟩ := TermTree.exists_of_enclosed harrow hdot hrest
    obtain ⟨before, a, after, l, r, rfl, ha, rfl, rfl⟩ :=
      exists_of_separated_eq (by cases x <;> simp [TermTree.token]) hbody
    obtain ⟨gap, hgap, hsurround⟩ := AtomTree.exists_gap ha
    refine ⟨.inBody head.form (before.map AtomTree.form) gap (after.map AtomTree.form), ?_,
      fun y => ?_⟩
    · simp [QueryGap.fill, QueryTree.form, hgap]
    · obtain ⟨b, hb, hform⟩ := hsurround y
      refine ⟨⟨head, before ++ b :: after⟩, ?_, by simp [QueryGap.fill, QueryTree.form, hform]⟩
      rw [QueryTree.tokens, List.map_append, List.map_cons, separated_append_cons, hb]
      simp [List.flatMap_map]

/-- A term of a text stands in a gap of what is read. -/
theorem exists_gap {qs : List QueryTree} {x : TermTree} {ts us : List Token}
    (h : programTokens qs = ts ++ x.token :: us) :
    ∃ gap : ProgramGap, gap.fill x.term = qs.map QueryTree.form ∧
      Surround programTokens (List.map QueryTree.form) ts us gap.fill := by
  obtain ⟨before, q, after, l, r, rfl, hq, rfl, rfl⟩ := exists_of_flatMap_eq h
  obtain ⟨gap, hgap, hsurround⟩ := QueryTree.exists_gap hq
  refine ⟨⟨before.map QueryTree.form, gap, after.map QueryTree.form⟩, ?_, fun y => ?_⟩
  · simp [ProgramGap.fill, hgap]
  · obtain ⟨p, hp, hform⟩ := hsurround y
    refine ⟨before ++ p :: after, ?_, by simp [ProgramGap.fill, hform]⟩
    simp [programTokens, hp]

end Conjunctive
