import Conjunctive.Evaluation.Basic
import Conjunctive.Proofs.Lists

/-!
# How an evaluation fails

A step of an evaluation fails in a certain way if all its errors have a property
(`FailsWith`). A step that reads no node fails only for an atom without a relation or for
what batches do not allow (`EvaluationError.IsLocal`). Any other step fails as reading the
nodes does, and an evaluation on a forest as its passes do. So to keep an error out of an
evaluation is to keep it out of reading the nodes.
-/

namespace Conjunctive

/-- The errors of steps that read no node. -/
def EvaluationError.IsLocal : EvaluationError → Prop
  | unboundAtom _ | batch _ => True
  | cyclic _ _ | unvisited _ => False

/-- A step of an evaluation that fails, if at all, with an error of a certain kind. -/
def FailsWith {α : Type} (p : EvaluationError → Prop) (x : Except EvaluationError α) : Prop :=
  ∀ e, x = .error e → p e

namespace FailsWith

variable {α β : Type} {p : EvaluationError → Prop}

theorem ok (a : α) : FailsWith p (.ok a) := nofun

/-- An error that is passed on. -/
theorem of_passed {x : Except EvaluationError α} (hx : FailsWith p x) {e e' : EvaluationError}
    (heq : x = .error e') (h : (.error e' : Except EvaluationError β) = .error e) : p e := by
  cases h
  exact hx e heq

theorem bind {x : Except EvaluationError α} {k : α → Except EvaluationError β}
    (hx : FailsWith p x) (hk : ∀ a, FailsWith p (k a)) : FailsWith p (x >>= k) := by
  intro e h
  rcases bind_eq_error_iff.mp h with h | ⟨a, -, h⟩
  · exact hx e h
  · exact hk a e h

theorem mapM {k : α → Except EvaluationError β} {l : List α} (hk : ∀ a ∈ l, FailsWith p (k a)) :
    FailsWith p (l.mapM k) := by
  intro e h
  obtain ⟨a, ha, herror⟩ := exists_of_mapM_eq_error h
  exact hk a ha e herror

theorem foldlM {k : β → α → Except EvaluationError β} {l : List α}
    (hk : ∀ a ∈ l, ∀ b, FailsWith p (k b a)) (b : β) : FailsWith p (l.foldlM k b) := by
  intro e h
  obtain ⟨before, a, after, b', rfl, -, herror⟩ := exists_of_foldlM_eq_error h
  exact hk a (List.mem_append_right before List.mem_cons_self) b' e herror

/-! ### Steps that read no node -/

section Local

variable (hp : ∀ e : EvaluationError, e.IsLocal → p e)

include hp

theorem liftBatch (x : Except BatchError α) : FailsWith p (liftBatch x) := by
  intro e h
  cases x with
  | error _ =>
      cases h
      exact hp _ trivial
  | ok _ => cases h

theorem scan (a : Atom) (head : List String) : FailsWith p (a.scan head) := by
  intro e h
  unfold Atom.scan at h
  split at h
  · cases h
    exact hp _ trivial
  · cases h

theorem joinScans (head : List String) (b : Batch) (as : List Atom) :
    FailsWith p (joinScans head b as) := by
  induction as generalizing b with
  | nil => exact ok b
  | cons a as ih =>
      unfold Conjunctive.joinScans
      split_ifs
      · exact ok b
      · exact (scan hp a head).bind fun s => (liftBatch hp _).bind fun j => ih j

theorem scanAll (as : List Atom) (head : List String) : FailsWith p (scanAll as head) := by
  unfold Conjunctive.scanAll
  split
  · exact ok _
  · exact scan hp _ head
  · exact (scan hp _ head).bind fun b =>
      (joinScans hp head b _).bind fun j => liftBatch hp _

theorem finish (q : Query) (distinct : Bool) (b : Batch) : FailsWith p (q.finish distinct b) := by
  unfold Query.finish
  refine (liftBatch hp _).bind fun projected => ?_
  split_ifs
  · exact liftBatch hp _
  · exact ok _

theorem groundAtomsHold (as : List Atom) : FailsWith p (Query.groundAtomsHold as) := by
  induction as with
  | nil => exact ok true
  | cons a as ih =>
      unfold Query.groundAtomsHold
      split_ifs
      · refine (scan hp a []).bind fun b => ?_
        split_ifs
        · exact ok false
        · exact ih
      · exact ih

/-! ### Steps that read nodes -/

theorem semijoins {s : NodeBatches} (b : Batch) {ns : List Hyperedge}
    (hget : ∀ n ∈ ns, FailsWith p (s.get n)) : FailsWith p (Forest.semijoins s b ns) := by
  induction ns with
  | nil => exact ok []
  | cons n ns ih =>
      rw [List.forall_mem_cons] at hget
      unfold Forest.semijoins
      refine hget.1.bind fun partner => (liftBatch hp _).bind fun reduced => ?_
      split_ifs
      · exact ok _
      · exact (ih hget.2).bind fun rest => ok _

theorem joinNodes (headVars : List String) {s : NodeBatches} (b : Batch) {ns : List Hyperedge}
    (hget : ∀ n ∈ ns, FailsWith p (s.get n)) :
    FailsWith p (Forest.joinNodes headVars s b ns) := by
  refine foldlM (fun n hn b => ?_) b
  exact (hget n hn).bind fun partner => (liftBatch hp _).bind fun joined => liftBatch hp _

omit hp in
theorem combine {f : Forest} {s : NodeBatches} (hget : ∀ n ∈ f.roots, FailsWith p (s.get n)) :
    FailsWith p (f.combine s) := by
  refine (mapM hget).bind fun bs => ?_
  split <;> exact ok _

omit hp in
theorem rootsHold {f : Forest} {s : NodeBatches} (hget : ∀ n ∈ f.roots, FailsWith p (s.get n)) :
    FailsWith p (f.rootsHold s) := (mapM hget).bind fun _ => ok _

/-- An evaluation on a forest fails as its passes and reading its roots do. -/
theorem onForest {q : Query} {distinct : Bool} {f : Forest} (hup : FailsWith p f.reduceUp)
    (hdecided : ∀ up, f.reduceUp = .ok up → ∀ n ∈ f.roots, FailsWith p (up.get n))
    (hdown : ∀ up, f.reduceUp = .ok up → FailsWith p (f.reduceDown up))
    (hjoin : ∀ up down, f.reduceUp = .ok up → f.reduceDown up = .ok down →
      FailsWith p (f.joinUp q.head.vars down))
    (hcombined : ∀ up down joined, f.reduceUp = .ok up → f.reduceDown up = .ok down →
      f.joinUp q.head.vars down = .ok joined → ∀ n ∈ f.roots, FailsWith p (joined.get n)) :
    FailsWith p (Evaluation.onForest q distinct f).answer := by
  intro e h
  unfold Evaluation.onForest at h
  split at h
  case h_1 e' heq => exact hup.of_passed heq h
  case h_2 up heqUp =>
    split_ifs at h
    · split at h
      case h_1 e' heq => exact (rootsHold (hdecided up heqUp)).of_passed heq h
      case h_2 => cases h
    · split at h
      case h_1 e' heq => exact (hdown up heqUp).of_passed heq h
      case h_2 down heqDown =>
        split at h
        case h_1 e' heq => exact (hjoin up down heqUp heqDown).of_passed heq h
        case h_2 joined heqJoin =>
          split at h
          case h_1 e' heq =>
            have hroots := hcombined up down joined heqUp heqDown heqJoin
            exact ((combine hroots).bind (finish hp q distinct)).of_passed heq h
          case h_2 => cases h

end Local

end FailsWith

end Conjunctive
