import Conjunctive.Query.Resolve
import Conjunctive.Proofs.Lists

/-!
# What resolving a form gives

Each atom of a resolved query is bound to a relation that was looked up. If a
form is not resolved, that is the fault of an unknown relation, of a number of
terms or of a head, unless one of its terms could not be read.
-/

namespace Conjunctive

namespace QueryError

/-- Whether an error tells that a text is no query over the relations at hand. -/
def isRejection : QueryError → Bool
  | parse _ | unknownRelation _ | arityMismatch _ _ _ | invalidHead _ _ => true
  | notAConstant _ => false

end QueryError

theorem Atom.relation_of_bound? {predicate : String} {terms : List Term} {r : Relation} {a : Atom}
    (h : Atom.bound? predicate terms r = .ok a) : a.relation = some r := by
  unfold Atom.bound? at h
  split_ifs at h
  cases h
  rfl

theorem Atom.isRejection_of_bound? {predicate : String} {terms : List Term} {r : Relation}
    {e : QueryError} (h : Atom.bound? predicate terms r = .error e) : e.isRejection = true := by
  unfold Atom.bound? at h
  split_ifs at h
  cases h
  rfl

theorem Head.isRejection_of_ofTerms? {predicate : String} {terms : List Term} {e : QueryError}
    (h : Head.ofTerms? predicate terms = .error e) : e.isRejection = true := by
  unfold Head.ofTerms? at h
  split at h
  · cases h
    rfl
  · cases h

namespace QueryForm

variable {τ : Type} {find : String → Option Relation} {read : τ → Except QueryError Term}
  {form : QueryForm τ}

theorem exists_relation_of_resolve {q : Query} (h : form.resolve find read = .ok q) :
    ∀ a ∈ q.body, ∃ name r, find name = some r ∧ a.relation = some r := by
  obtain ⟨head, -, h⟩ := bind_eq_ok_iff.mp h
  obtain ⟨body, hbody, h⟩ := bind_eq_ok_iff.mp h
  cases h
  intro a ha
  obtain ⟨form, -, hform⟩ := exists_of_mapM_eq_ok hbody ha
  split at hform
  · cases hform
  · rename_i r hr
    obtain ⟨terms, -, hbound⟩ := bind_eq_ok_iff.mp hform
    exact ⟨form.name, r, hr, Atom.relation_of_bound? hbound⟩

theorem isRejection_of_resolve (hread : ∀ t e, read t = .error e → e.isRejection = true)
    {e : QueryError} (h : form.resolve find read = .error e) : e.isRejection = true := by
  have hterms : ∀ (ts : List τ) (e : QueryError), ts.mapM read = .error e →
      e.isRejection = true := by
    intro ts e h
    obtain ⟨t, -, ht⟩ := exists_of_mapM_eq_error h
    exact hread t e ht
  rcases bind_eq_error_iff.mp h with hhead | ⟨head, -, h⟩
  · rcases bind_eq_error_iff.mp hhead with hts | ⟨ts, -, hhead⟩
    · exact hterms _ e hts
    · exact Head.isRejection_of_ofTerms? hhead
  · rcases bind_eq_error_iff.mp h with hbody | ⟨body, -, h⟩
    · obtain ⟨form, -, hform⟩ := exists_of_mapM_eq_error hbody
      split at hform
      · cases hform
        rfl
      · rcases bind_eq_error_iff.mp hform with hts | ⟨ts, -, hbound⟩
        · exact hterms _ e hts
        · exact Atom.isRejection_of_bound? hbound
    · cases h

end QueryForm

end Conjunctive
