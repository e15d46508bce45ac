import Conjunctive.Outcome
import Conjunctive.Proofs.Query.Layout
import Conjunctive.Proofs.Query.Resolve
import Conjunctive.Proofs.Evaluation.Answer
import Conjunctive.Proofs.Evaluation.Cyclic

/-!
# Every text of a batch is settled

Over relations whose cells can be looked up, evaluating a batch of texts gives
one outcome for each text. `Verdict.Settles` says what an outcome records: by
whether the query was found to be acyclic it is an answer, a cycle or a
rejection, and the other entries go with that. What carries it is that a query
resolved from a text is ready to be scanned, so that its evaluation fails for a
cycle or not at all.
-/

namespace Conjunctive

namespace Answer

def isTruth : Answer → Bool
  | truth _ => true
  | batch _ => false

end Answer

namespace Query

/-- A query that is ready to be scanned has an answer of its kind, or its evaluation fails
for a cycle. -/
theorem evaluate_eq_ok_or_cyclic {q : Query} (hready : ∀ a ∈ q.body, a.Ready) (distinct : Bool) :
    (∃ a, q.evaluate distinct = .ok a ∧ (a.isTruth = true ↔ q.head.vars = []) ∧
      ∃ G, IsJoinForest id q.variableSets G) ∨
    ∃ left, q.evaluate distinct = .error (.cyclic q left) ∧
      ¬ ∃ G, IsJoinForest id q.variableSets G := by
  rw [← left_eq_nil_iff]
  by_cases hleft : (Hypergraph.ofQuery q).eliminate.left = []
  · left
    have hacyclic := isAcyclic_iff_left_eq_nil.mpr hleft
    by_cases hboolean : q.isBoolean = true
    · obtain ⟨b, heval, -⟩ := evaluate_of_isBoolean hready hacyclic hboolean distinct
      exact ⟨_, heval, iff_of_true rfl (List.isEmpty_iff.mp hboolean), hleft⟩
    · rw [Bool.not_eq_true] at hboolean
      obtain ⟨c, -, -, -, -, heval⟩ := evaluate_eq hready hacyclic hboolean distinct
      refine ⟨_, heval, iff_of_false Bool.false_ne_true ?_, hleft⟩
      exact List.isEmpty_eq_false_iff.mp hboolean
  · exact Or.inr ⟨_, evaluate_eq_cyclic_iff.mpr ⟨hleft, rfl, rfl⟩, hleft⟩

/-- A query with an atom over each of some lists of variables, and with nothing else. -/
def ofVars (vs : List (List String)) : Query :=
  ⟨⟨"Answer", []⟩, vs.map fun us => Atom.free "R" (us.map Term.variable)⟩

theorem variableSets_ofVars (q : Query) :
    (ofVars (q.body.map Atom.vars)).variableSets = q.variableSets := by
  have hset (a : Atom) :
      (Atom.free "R" (a.vars.map Term.variable)).variableSet = a.variableSet := by
    ext v
    simp [Atom.variableSet, Atom.mem_vars_iff, Atom.free]
  ext s
  simp [variableSets, ofVars, hset]

/-- Whether a query is acyclic lies in the variables of its atoms. -/
theorem isAcyclic_ofVars (q : Query) : (ofVars (q.body.map Atom.vars)).isAcyclic = q.isAcyclic := by
  rw [Bool.eq_iff_iff, isAcyclic_iff_left_eq_nil, isAcyclic_iff_left_eq_nil, left_eq_nil_iff,
    left_eq_nil_iff, variableSets_ofVars]

end Query

namespace Verdict

/-- What a verdict on a text records. -/
def Settles (c : Catalogue) (distinct : Bool) (text : String) (v : Verdict) : Prop :=
  match v.isAcyclic? with
  | some true => ∃ q a, c.parse text = .ok q ∧ q.evaluate distinct = .ok a ∧
      v.query? = some q ∧ v.answer? = some a ∧ v.failure? = none ∧
      (a.isTruth = true ↔ q.head.vars = []) ∧ ∃ G, IsJoinForest id q.variableSets G
  | some false => ∃ q left, c.parse text = .ok q ∧
      v.query? = some q ∧ v.answer? = none ∧
      v.failure? = some (.evaluation (.cyclic q left)) ∧ ¬ ∃ G, IsJoinForest id q.variableSets G
  | none => ∃ e, c.parse text = .error e ∧ e.isRejection = true ∧
      v.query? = none ∧ v.answer? = none ∧ v.failure? = some (.query e)

/-- A text whose query is resolved is found to be acyclic or not, and no other is. -/
theorem Settles.isAcyclic?_eq {c : Catalogue} {distinct : Bool} {text : String} {v : Verdict}
    (h : v.Settles c distinct text) :
    v.isAcyclic? = (c.parse text).toOption.map Query.isAcyclic := by
  unfold Settles at h
  split at h
  next hv =>
    obtain ⟨q, a, hparse, -, -, -, -, -, hforest⟩ := h
    rw [← Query.left_eq_nil_iff, ← Query.isAcyclic_iff_left_eq_nil] at hforest
    rw [hv, hparse, Except.toOption, Option.map_some, hforest]
  next hv =>
    obtain ⟨q, left, hparse, -, -, -, hnone⟩ := h
    rw [← Query.left_eq_nil_iff, ← Query.isAcyclic_iff_left_eq_nil, Bool.not_eq_true] at hnone
    rw [hv, hparse, Except.toOption, Option.map_some, hnone]
  next hv =>
    obtain ⟨e, hparse, -⟩ := h
    rw [hv, hparse, Except.toOption, Option.map_none]

end Verdict

namespace Catalogue

/-- All cells of the relations can be looked up. -/
def HasKeys (c : Catalogue) : Prop :=
  ∀ p ∈ c.relations, ∀ row ∈ p.2.rows, ∀ x ∈ row, x.isKey = true

variable {c : Catalogue}

theorem isKey_of_find? (hc : c.HasKeys) {name : String} {r : Relation} (h : c.find? name = some r) :
    ∀ row ∈ r.rows, ∀ x ∈ row, x.isKey = true := by
  obtain ⟨p, hp, rfl⟩ := Option.map_eq_some_iff.mp h
  exact hc p (List.mem_of_find?_eq_some hp)

/-- The atoms of a query that was resolved from a text can be scanned. -/
theorem ready_of_parse (hc : c.HasKeys) {text : String} {q : Query} (h : c.parse text = .ok q) :
    ∀ a ∈ q.body, a.Ready := by
  obtain ⟨form, -, hresolve⟩ := bind_eq_ok_iff.mp h
  intro a ha
  obtain ⟨name, r, hfind, hr⟩ := QueryForm.exists_relation_of_resolve hresolve a ha
  refine ⟨by rw [hr]; rfl, ?_⟩
  rw [Atom.rows, hr]
  exact isKey_of_find? hc hfind

theorem isRejection_of_parse {text : String} {e : QueryError} (h : c.parse text = .error e) :
    e.isRejection = true := by
  rcases bind_eq_error_iff.mp h with hform | ⟨form, -, hresolve⟩
  · cases hparse : QueryForm.parseOne text with
    | error e =>
        rw [hparse] at hform
        cases hform
        rfl
    | ok form =>
        rw [hparse] at hform
        cases hform
  · refine QueryForm.isRejection_of_resolve (fun t e hread => ?_) hresolve
    cases hread

theorem judge_settles (hc : c.HasKeys) (distinct : Bool) (text : String) :
    ∃ v, c.judge distinct text = .ok v ∧ v.Settles c distinct text := by
  unfold judge
  cases hparse : c.parse text with
  | error e =>
      have hrejection := isRejection_of_parse hparse
      refine ⟨.rejected e, ?_, e, hparse, hrejection, rfl, rfl, rfl⟩
      cases e with
      | notAConstant kind => cases hrejection
      | _ => rfl
  | ok q =>
      rcases Query.evaluate_eq_ok_or_cyclic (ready_of_parse hc hparse) distinct with
        ⟨a, heval, hkind, hforest⟩ | ⟨left, heval, hnone⟩
      · refine ⟨.answered q a, ?_, q, a, hparse, heval, rfl, rfl, rfl, hkind, hforest⟩
        simp only [heval]
      · refine ⟨.cyclic q left, ?_, q, left, hparse, rfl, rfl, rfl, hnone⟩
        simp only [heval]

theorem evaluateFrom_settles (hc : c.HasKeys) (distinct : Bool) (texts : List String) (id : Nat) :
    ∃ outcomes, c.evaluateFrom distinct id texts = .ok outcomes ∧
      outcomes.map Outcome.id = List.range' id texts.length ∧
      List.Forall₂ (fun text o => o.text = String.ofList (Text.strip text.toList) ∧
        o.verdict.Settles c distinct text) texts outcomes := by
  induction texts generalizing id with
  | nil => exact ⟨[], rfl, rfl, .nil⟩
  | cons text texts ih =>
      obtain ⟨v, hjudge, hv⟩ := judge_settles hc distinct text
      obtain ⟨outcomes, hrun, hids, hsettled⟩ := ih (id + 1)
      refine ⟨⟨id, _, v⟩ :: outcomes, ?_, ?_, .cons ⟨rfl, hv⟩ hsettled⟩
      · rw [evaluateFrom, hjudge, hrun]
        rfl
      · rw [List.map_cons, hids, List.length_cons, List.range'_succ]

/-- No text ends a batch: each gets an outcome, in order and numbered from 1, which is an
answer, a cycle or a rejection. For a query that was resolved from a text, every variable
of an atom has a value in each row that matches, and the evaluation reads nothing that is
not there. -/
theorem evaluateAll_settles (hc : c.HasKeys) (distinct : Bool) (texts : List String) :
    (∃ outcomes, c.evaluateAll distinct texts = .ok outcomes ∧
      outcomes.map Outcome.id = List.range' 1 texts.length ∧
      List.Forall₂ (fun text o => o.text = String.ofList (Text.strip text.toList) ∧
        o.verdict.Settles c distinct text) texts outcomes) ∧
    ∀ text q, c.parse text = .ok q →
      (∀ a ∈ q.body, ∀ row ∈ a.rows, ∀ σ, a.match? row = some σ →
        ∀ v ∈ a.vars, (σ.value? v).isSome = true) ∧
      ∀ e, q.evaluate distinct = .error e → ∃ left, e = .cyclic q left := by
  refine ⟨evaluateFrom_settles hc distinct texts 1, fun text q hparse => ⟨?_, ?_⟩⟩
  · intro a _ row hrow σ hmatch v hv
    have hextends := Atom.matchFrom_eq_some (Atom.length_of_mem_rows hrow) hmatch
    exact (hextends.isSome_iff v).mpr (Or.inr (Atom.mem_vars_iff.mp hv))
  · intro e he
    rcases Query.evaluate_eq_ok_or_cyclic (ready_of_parse hc hparse) distinct with
      ⟨a, heval, -⟩ | ⟨left, heval, -⟩
    · rw [heval] at he
      cases he
    · rw [heval] at he
      cases he
      exact ⟨left, rfl⟩

/-- One relation with two columns. -/
def links : Catalogue :=
  Catalogue.empty.add "Link"
    { name := none
      storage := .together
      columns := ["from", "to"]
      rows := [[.int 1, .int 2], [.int 2, .null]]
      width_eq := by decide
      definite := by decide }

/-- Two queries with answers, a triangle, a wrong number of terms, a relation that is not
there, a head with a constant, and no query at all. -/
theorem evaluateAll_settles_links :
    let texts := ["Answer(x) :- Link(x, y).", "Answer() :- Link(x, x).",
      "Answer(x) :- Link(x, y), Link(y, z), Link(z, x).", "Answer(x) :- Link(x).",
      "Answer(x) :- Node(x).", "Answer(1) :- Link(1, y).", "Answer(x :- "]
    ∃ outcomes, links.evaluateAll false texts = .ok outcomes ∧
      outcomes.map Outcome.id = [1, 2, 3, 4, 5, 6, 7] ∧
      outcomes.map (fun o => o.verdict.isAcyclic?) =
        [some true, some true, some false, none, none, none, none] ∧
      List.Forall₂ (fun text o => o.verdict.Settles links false text) texts outcomes := by
  intro texts
  have hkeys : links.HasKeys := by
    intro p hp
    rw [List.mem_singleton.mp hp]
    decide
  obtain ⟨outcomes, hrun, hids, hsettled⟩ := (evaluateAll_settles hkeys false texts).1
  have hsettles := hsettled.imp fun _ _ => And.right
  have hacyclic : outcomes.map (fun o => o.verdict.isAcyclic?) =
      texts.map fun text => (links.parse text).toOption.map Query.isAcyclic := by
    rw [eq_comm, ← List.forall₂_eq_eq_eq, List.forall₂_map_left_iff, List.forall₂_map_right_iff]
    exact hsettles.imp fun _ _ h => h.isAcyclic?_eq.symm
  have hvars : (texts.map fun text => (links.parse text).toOption.map fun q =>
      q.body.map Atom.vars) =
      [some [["x", "y"]], some [["x"]], some [["x", "y"], ["y", "z"], ["z", "x"]],
        none, none, none, none] := by
    simp only [texts, Catalogue.parse, QueryForm.parseOne, QueryForm.parse,
      Token.scan_eq_scanWithin]
    decide +kernel
  have hofvars := congrArg (List.map (Option.map fun vs => (Query.ofVars vs).isAcyclic)) hvars
  simp only [List.map_map, Function.comp_def, Option.map_map, Query.isAcyclic_ofVars] at hofvars
  refine ⟨outcomes, hrun, hids, ?_, hsettles⟩
  rw [hacyclic, hofvars]
  cbv

end Catalogue

end Conjunctive
