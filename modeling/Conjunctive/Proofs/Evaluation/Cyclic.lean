import Conjunctive.Proofs.Evaluation.Failure
import Conjunctive.Proofs.Hypergraph.Acyclicity

/-!
# Which queries are rejected as cyclic

An evaluation is given up for a cycle exactly when the elimination leaves some
hyperedges; no pass over a forest fails that way. Together with what is known
of the elimination: the rejected queries are those without a join forest.
-/

namespace Conjunctive

/-- An error that is no cycle. -/
def EvaluationError.NotCyclic (e : EvaluationError) : Prop := ∀ q left, e ≠ .cyclic q left

namespace EvaluationError

theorem notCyclic_of_isLocal : ∀ e : EvaluationError, e.IsLocal → e.NotCyclic := by
  rintro _ hlocal q left rfl
  exact hlocal

end EvaluationError

namespace Forest

open EvaluationError

theorem notCyclic_get (s : NodeBatches) (n : Hyperedge) : FailsWith NotCyclic (s.get n) := by
  rintro _ h q left rfl
  unfold NodeBatches.get at h
  split at h <;> cases h

theorem notCyclic_reduceNode (f : Forest) (s : NodeBatches) (n : Hyperedge) :
    FailsWith NotCyclic (f.reduceNode s n) := by
  have hlocal := notCyclic_of_isLocal
  unfold Forest.reduceNode
  refine (FailsWith.scanAll hlocal _ _).bind fun own => ?_
  split
  · exact .ok _
  · refine (FailsWith.semijoins hlocal own fun m _ => notCyclic_get s m).bind fun reduced => ?_
    exact (FailsWith.liftBatch hlocal _).bind fun b => .ok _

theorem notCyclic_reduceUp (f : Forest) : FailsWith NotCyclic f.reduceUp :=
  .foldlM (fun n _ s => f.notCyclic_reduceNode s n) _

theorem notCyclic_reduceDown (f : Forest) (s : NodeBatches) :
    FailsWith NotCyclic (f.reduceDown s) := by
  refine .foldlM (fun link _ s => ?_) _
  exact (notCyclic_get s link.2).bind fun child => (notCyclic_get s link.1).bind fun parent =>
    (FailsWith.liftBatch notCyclic_of_isLocal _).bind fun reduced => .ok _

theorem notCyclic_joinUp (f : Forest) (headVars : List String) (s : NodeBatches) :
    FailsWith NotCyclic (f.joinUp headVars s) := by
  refine .foldlM (fun n _ s => (notCyclic_get s n).bind fun own => ?_) _
  refine FailsWith.bind ?_ fun joined => .ok _
  exact .joinNodes notCyclic_of_isLocal headVars own fun m _ => notCyclic_get s m

/-- Once there is a forest, no evaluation fails for a cycle. -/
theorem notCyclic_onForest (q : Query) (distinct : Bool) (f : Forest) :
    FailsWith NotCyclic (Evaluation.onForest q distinct f).answer :=
  .onForest notCyclic_of_isLocal f.notCyclic_reduceUp (fun up _ n _ => notCyclic_get up n)
    (fun up _ => f.notCyclic_reduceDown up) (fun _ down _ _ => f.notCyclic_joinUp _ down)
    fun _ _ joined _ _ _ n _ => notCyclic_get joined n

end Forest

namespace Query

open Conjunctive.Hypergraph EvaluationError

/-- An evaluation fails for a cycle exactly if the elimination leaves something,
and then it reports what is left. -/
theorem evaluate_eq_cyclic_iff {q q' : Query} {distinct : Bool} {left : List (List String)} :
    q.evaluate distinct = .error (.cyclic q' left) ↔
      (ofQuery q).eliminate.left ≠ [] ∧ q' = q ∧
        left = (ofQuery q).eliminate.left.map Hyperedge.vertices := by
  constructor
  · intro h
    dsimp only [evaluate, Evaluation.run] at h
    by_cases hleft : (ofQuery q).eliminate.left.isEmpty = true
    · rw [if_pos hleft] at h
      split at h
      · rename_i e he
        have hground := FailsWith.groundAtomsHold notCyclic_of_isLocal q.body
        exact absurd rfl (hground.of_passed he h q' left)
      · exact absurd rfl (Forest.notCyclic_onForest q distinct _ _ h q' left)
      · split at h <;> cases h
    · rw [if_neg hleft] at h
      cases h
      exact ⟨by simpa using hleft, rfl, rfl⟩
  · rintro ⟨hleft, rfl, rfl⟩
    dsimp only [evaluate, Evaluation.run]
    rw [if_neg (by simpa using hleft)]

theorem isAcyclic_iff_left_eq_nil {q : Query} :
    q.isAcyclic = true ↔ (ofQuery q).eliminate.left = [] := isSome_forest?_iff

/-- A hyperedge that is left is no ear, read off the lists of vertices. -/
theorem not_isEar_of_mem_map_left (q : Query) {vs : List String}
    (hvs : vs ∈ (ofQuery q).eliminate.left.map Hyperedge.vertices) :
    ¬ IsEar {v | v ∈ vs} {s | ∃ us ∈ (ofQuery q).eliminate.left.map Hyperedge.vertices,
      us ≠ vs ∧ s = {v | v ∈ us}} := by
  obtain ⟨e, he, rfl⟩ := List.mem_map.mp hvs
  have hothers : {s | ∃ us ∈ (ofQuery q).eliminate.left.map Hyperedge.vertices,
      us ≠ e.vertices ∧ s = {v | v ∈ us}} = edgeSets (others e (ofQuery q).eliminate.left) := by
    ext s
    constructor
    · rintro ⟨us, hus, hne, rfl⟩
      obtain ⟨f, hf, rfl⟩ := List.mem_map.mp hus
      exact ⟨f, mem_others.mpr ⟨hf, hne⟩, rfl⟩
    · rintro ⟨f, hf, rfl⟩
      obtain ⟨hf, hne⟩ := mem_others.mp hf
      exact ⟨f.vertices, List.mem_map_of_mem hf, hne, rfl⟩
  rw [hothers]
  exact not_isEar_of_mem_left he

/-- A query is accepted if and only if there is any join forest on its sets of
variables, however its atoms and their variables are ordered. Otherwise its
evaluation reports hyperedges of the query that are left, none of them an ear. -/
theorem isAcyclic_iff_exists_isJoinForest (q : Query) (distinct : Bool) :
    (q.isAcyclic = true ↔ ∃ G, IsJoinForest id q.variableSets G) ∧
      ((∃ f, (ofQuery q).forest? = some f) ↔ ∃ G, IsJoinForest id q.variableSets G) ∧
      ((∃ q' left, q.evaluate distinct = .error (.cyclic q' left)) ↔
        ¬ ∃ G, IsJoinForest id q.variableSets G) ∧
      ∀ q' left, q.evaluate distinct = .error (.cyclic q' left) →
        q' = q ∧ left ≠ [] ∧ left.Sublist ((ofQuery q).map Hyperedge.vertices) ∧
          ∀ vs ∈ left, ¬ IsEar {v | v ∈ vs} {s | ∃ us ∈ left, us ≠ vs ∧ s = {v | v ∈ us}} := by
  have hiff := left_eq_nil_iff q
  refine ⟨?_, ?_, ?_, ?_⟩
  · rw [isAcyclic_iff_left_eq_nil, hiff]
  · rw [← Option.isSome_iff_exists, isSome_forest?_iff, hiff]
  · rw [← hiff]
    constructor
    · rintro ⟨q', left, h⟩
      exact (evaluate_eq_cyclic_iff.mp h).1
    · intro hleft
      exact ⟨q, _, evaluate_eq_cyclic_iff.mpr ⟨hleft, rfl, rfl⟩⟩
  · intro q' left h
    obtain ⟨hleft, rfl, rfl⟩ := evaluate_eq_cyclic_iff.mp h
    refine ⟨rfl, by simpa using hleft, ?_, fun vs hvs => not_isEar_of_mem_map_left q' hvs⟩
    have hrun := eliminates_eliminate (merges_ofQuery q').distinct
    exact hrun.sublist.map _

end Query

end Conjunctive
