import Conjunctive.Proofs.Evaluation.Choices
import Conjunctive.Proofs.Evaluation.Consistency
import Conjunctive.Proofs.Evaluation.Joining
import Mathlib.Algebra.BigOperators.Ring.List
import Mathlib.Algebra.Order.Ring.Nat
import Mathlib.Data.List.Forall2

/-!
# Answers

The answer to an acyclic query has each row as often as there are choices of
rows for its atoms that give it, and the truth value of a Boolean query tells
whether there is any choice. The two ways of evaluation agree on that, since
both come down to the assignments that solve all nodes of the forest.
-/

namespace Conjunctive

open Conjunctive.Hypergraph

/-! ### Ground atoms -/

instance (a : Atom) (row : Row) : Decidable (∃ σ, a.Matches σ row) :=
  decidable_of_iff (row.length = a.terms.length ∧ (a.match? row).isSome = true) <| by
    constructor
    · rintro ⟨hlength, hmatch⟩
      exact (exists_takes_iff hlength).mpr hmatch
    · rintro ⟨σ, hσ⟩
      have hlength : row.length = a.terms.length := hσ.length_eq.symm
      exact ⟨hlength, (exists_takes_iff hlength).mp ⟨σ, hσ⟩⟩

namespace Query

/-- Whether each ground atom has a matching row. -/
def GroundAtomsMatch (q : Query) : Prop :=
  ∀ a ∈ q.body, a.isGround = true → ∃ row ∈ a.rows, ∃ σ, a.Matches σ row

instance (q : Query) : Decidable q.GroundAtomsMatch :=
  inferInstanceAs (Decidable
    (∀ a ∈ q.body, a.isGround = true → ∃ row ∈ a.rows, ∃ σ, a.Matches σ row))

/-- How often a row is an answer to a query. Ground atoms have to match, but do
not count. -/
def multiplicity (q : Query) (t : Row) : Nat :=
  if q.GroundAtomsMatch then
    (choices q.openAtoms).countP fun choice => Gives q.openAtoms q.answerVariables t choice
  else 0

theorem groundAtomsHold_eq {as : List Atom} (hready : ∀ a ∈ as, a.Ready) :
    groundAtomsHold as =
      .ok (decide (∀ a ∈ as, a.isGround = true → ∃ row ∈ a.rows, ∃ σ, a.Matches σ row)) := by
  induction as with
  | nil => rfl
  | cons a as ih =>
      have hrest := ih fun b hb => hready b (by simp [hb])
      rw [groundAtomsHold]
      split_ifs with hground
      · rw [Atom.scan_eq (hready a (by simp))]
        change (if (a.scanned []).isEmpty then pure false else groundAtomsHold as) = _
        have hrows : a.scanRows [] a.rows ≠ [] ↔ ∃ row ∈ a.rows, ∃ σ, a.Matches σ row :=
          Atom.scanRows_ne_nil_iff
        by_cases hempty : a.scanRows [] a.rows = []
        · have hnone : ¬ ∃ row ∈ a.rows, ∃ σ, a.Matches σ row := by
            rw [← hrows, not_not]
            exact hempty
          rw [if_pos (Batch.isEmpty_iff.mpr hempty), decide_eq_false]
          · rfl
          · intro h
            exact hnone (h a (by simp) hground)
        · have hsome := hrows.mp hempty
          rw [if_neg (fun h => hempty (Batch.isEmpty_iff.mp h)), hrest]
          simp [hsome]
      · rw [hrest]
        simp [hground]

/-- The ground atoms match under every assignment or under none. -/
theorem exists_solution_iff {q : Query} {P : Assignment → Prop}
    (hP : ∀ σ, P σ ↔ ∀ a ∈ q.openAtoms, ∃ row ∈ a.rows, a.Matches σ row) :
    (q.GroundAtomsMatch ∧ ∃ σ, P σ) ↔ ∃ σ, ∀ a ∈ q.body, ∃ row ∈ a.rows, a.Matches σ row := by
  constructor
  · rintro ⟨hground, σ, hσ⟩
    refine ⟨σ, fun a ha => ?_⟩
    by_cases hag : a.isGround = true
    · obtain ⟨row, hrow, τ, hτ⟩ := hground a ha hag
      refine ⟨row, hrow, (Atom.matches_congr fun v hv => ?_).mp hτ⟩
      rw [List.isEmpty_iff.mp hag] at hv
      cases hv
    · exact (hP σ).mp hσ a (List.mem_filter.mpr ⟨ha, by simpa using hag⟩)
  · rintro ⟨σ, hσ⟩
    refine ⟨fun a ha _ => ?_, σ, (hP σ).mpr fun a ha => hσ a (List.mem_filter.mp ha).1⟩
    obtain ⟨row, hrow, hmatch⟩ := hσ a ha
    exact ⟨row, hrow, σ, hmatch⟩

end Query

namespace Atom

theorem hits_pos_iff {a : Atom} {σ : Assignment} :
    0 < a.hits σ ↔ ∃ row ∈ a.rows, a.Matches σ row := by
  rw [hits, List.countP_pos_iff]
  simp only [decide_eq_true_iff]

end Atom

theorem prod_hits_pos_iff {as : List Atom} {σ : Assignment} :
    0 < (as.map fun a => a.hits σ).prod ↔ ∀ a ∈ as, ∃ row ∈ a.rows, a.Matches σ row := by
  rw [Nat.pos_iff_ne_zero, Ne, List.prod_eq_zero_iff, List.mem_map]
  simp only [← Atom.hits_pos_iff, Nat.pos_iff_ne_zero, not_exists, not_and, ne_eq]

/-- To solve all nodes is to solve all atoms with variables. -/
theorem solves_ofQuery_iff {q : Query} {σ : Assignment} :
    (ofQuery q).Solves σ ↔ ∀ a ∈ q.openAtoms, ∃ row ∈ a.rows, a.Matches σ row := by
  rw [← prod_hits_pos_iff, ← Query.prod_own, Nat.pos_iff_ne_zero, Ne, List.prod_eq_zero_iff,
    List.mem_map, Solves]
  simp only [Nat.pos_iff_ne_zero, not_exists, not_and, ne_eq]

/-! ### Runs of an evaluation -/

/-- An acyclic query is evaluated on its forest if its ground atoms match. -/
theorem run_eq {q : Query} {f : Forest} (hready : ∀ a ∈ q.body, a.Ready)
    (hf : (ofQuery q).forest? = some f) (distinct : Bool) :
    Evaluation.run q distinct =
      if q.GroundAtomsMatch then Evaluation.onForest q distinct f
      else if q.isBoolean then ⟨some f, [], .decided, .ok (.truth false)⟩
      else ⟨some f, [], .combined,
        .ok (.batch (.empty ⟨q.head.predicate, q.answerVariables⟩))⟩ := by
  have hhold : Query.groundAtomsHold q.body = .ok (decide q.GroundAtomsMatch) :=
    Query.groundAtomsHold_eq hready
  dsimp only [forest?] at hf
  split_ifs at hf with hleft
  cases hf
  dsimp only [Evaluation.run]
  rw [if_pos hleft, hhold]
  by_cases hground : q.GroundAtomsMatch
  · rw [if_pos hground, decide_eq_true hground]
  · rw [if_neg hground, decide_eq_false hground]

/-- The passes over a forest and the combination of its roots, for a query that is
not Boolean. -/
structure Forest.Passes (f : Forest) (q : Query) (up down joined : NodeBatches) (c : Batch) :
    Prop where
  up_eq : f.reduceUp = .ok up
  down_eq : f.reduceDown up = .ok down
  join_eq : f.joinUp q.head.vars down = .ok joined
  combine_eq : f.combine joined = .ok c

/-- What an evaluation on a forest shows is what its passes give. -/
theorem Forest.Passes.onForest_eq {f : Forest} {q : Query} {up down joined : NodeBatches}
    {c answer : Batch} (h : f.Passes q up down joined c) (hboolean : q.isBoolean = false)
    {distinct : Bool} (hfinish : q.finish distinct c = .ok answer) :
    Evaluation.onForest q distinct f =
      ⟨some f, [⟨.reducingUp, up⟩, ⟨.reducingDown, down⟩, ⟨.joining, joined⟩], .combined,
        .ok (.batch answer)⟩ := by
  have hrun : (f.combine joined).bind (q.finish distinct) = .ok answer := by
    rw [h.combine_eq]
    exact hfinish
  unfold Evaluation.onForest
  simp only [h.up_eq, hboolean, Bool.false_eq_true, if_false, h.down_eq, h.join_eq, hrun]

namespace Forest.Spans

variable {f : Forest} {q : Query}

/-- A Boolean query is decided after the first pass. -/
theorem onForest_of_isBoolean (h : f.Spans (ofQuery q)) (hready : ∀ a ∈ q.body, a.Ready)
    (hboolean : q.isBoolean = true) (distinct : Bool) :
    ∃ b, (Evaluation.onForest q distinct f).answer = .ok (.truth b) ∧
      (b = true ↔ ∃ σ, (ofQuery q).Solves σ) ∧
      ∀ s ∈ (Evaluation.onForest q distinct f).passes, s.phase = .reducingUp := by
  obtain ⟨s, hup, hs⟩ := h.reduceUp_eq (Query.loaded_ofQuery hready)
  have hget : f.roots.mapM s.get = .ok (f.roots.map s.batch) :=
    mapM_eq_ok fun r hr => NodeBatches.get_eq (hs r (h.mem_roots_iff.mp hr).1).has
  have hroots : f.rootsHold s = .ok ((f.roots.map s.batch).all fun b => !b.isEmpty) := by
    rw [Forest.rootsHold, hget]
    rfl
  have hrun : Evaluation.onForest q distinct f = ⟨some f, [⟨.reducingUp, s⟩], .decided,
      .ok (.truth ((f.roots.map s.batch).all fun b => !b.isEmpty))⟩ := by
    unfold Evaluation.onForest
    simp only [hup, hboolean, if_true, hroots]
  rw [hrun]
  refine ⟨_, rfl, ?_, by simp⟩
  rw [← h.roots_rows_iff hs, List.all_eq_true, List.forall_mem_map]
  apply forall₂_congr
  intro r _
  rw [Bool.not_eq_true', ← Bool.not_eq_true, Batch.isEmpty_iff]

/-- For another query, all passes lead to a batch in which every assignment has
the weight that the atoms give it. -/
theorem exists_passes (h : f.Spans (ofQuery q)) (hready : ∀ a ∈ q.body, a.Ready) :
    ∃ up down joined c, f.Passes q up down joined c ∧ f.Consistent (ofQuery q) down ∧ c.Clean ∧
      (∀ v, v ∈ c.head.vars ↔ ∃ n ∈ ofQuery q, v ∈ n.vertices) ∧
      ∀ σ, c.weight σ = (q.openAtoms.map fun a => a.hits σ).prod := by
  obtain ⟨up, hup, hreduced⟩ := h.reduceUp_eq (Query.loaded_ofQuery hready)
  obtain ⟨down, hdown, hconsistent⟩ := h.reduceDown_eq hreduced
  have hsifts := hconsistent.sifts
  obtain ⟨joined, hjoin, hjoined⟩ :=
    h.joinUp_eq (fun n hn => ⟨hsifts.has n hn, hsifts.clean n hn⟩) q.head.vars
  obtain ⟨c, hcombine, hclean, hvars, hweight⟩ := h.combine_eq hsifts.vars_eq hjoined
  refine ⟨up, down, joined, c, ⟨hup, hdown, hjoin, hcombine⟩, hconsistent, hclean, hvars,
    fun σ => ?_⟩
  -- only for solutions do the weights at the nodes matter, and there nothing was lost
  rw [hweight, ← Query.prod_own]
  by_cases hσ : (ofQuery q).Solves σ
  · exact congrArg List.prod (List.map_congr_left fun n hn => h.weight_eq_of_solves hsifts hn hσ)
  · unfold Solves at hσ
    push Not at hσ
    obtain ⟨n, hn, hzero⟩ := hσ
    have hle := hsifts.weight_le n hn σ
    rw [List.prod_eq_zero (List.mem_map.mpr ⟨n, hn, by omega⟩),
      List.prod_eq_zero (List.mem_map.mpr ⟨n, hn, by omega⟩)]

end Forest.Spans

namespace Query

theorem mem_bodyVariables_iff {q : Query} {v : String} :
    v ∈ q.bodyVariables ↔ ∃ a ∈ q.openAtoms, v ∈ a.vars := by
  rw [bodyVariables, List.mem_eraseDups, List.mem_flatMap]
  constructor
  · rintro ⟨a, ha, hv⟩
    refine ⟨a, List.mem_filter.mpr ⟨ha, ?_⟩, hv⟩
    rw [Bool.not_eq_true', Atom.isGround_eq_false_iff]
    exact List.ne_nil_of_mem hv
  · rintro ⟨a, ha, hv⟩
    exact ⟨a, (List.mem_filter.mp ha).1, hv⟩

theorem mem_vertices_iff {q : Query} {v : String} :
    (∃ n ∈ ofQuery q, v ∈ n.vertices) ↔ ∃ a ∈ q.openAtoms, v ∈ a.vars := by
  have hmerges := merges_ofQuery q
  constructor
  · rintro ⟨n, hn, hv⟩
    obtain ⟨a, ha, hground, heq⟩ := hmerges.exists_atom n hn
    exact ⟨a, List.mem_filter.mpr ⟨ha, by simp [hground]⟩, (Set.ext_iff.mp heq v).mp hv⟩
  · rintro ⟨a, ha, hv⟩
    obtain ⟨hbody, hground⟩ := List.mem_filter.mp ha
    obtain ⟨n, hn, heq⟩ := hmerges.covers a hbody (by simpa using hground)
    exact ⟨n, hn, (Set.ext_iff.mp heq v).mpr hv⟩

/-- The rows of an answer are those of a batch, restricted to the variables of
the head. -/
theorem finish_eq (q : Query) (distinct : Bool) {c : Batch} (hc : c.Clean) :
    q.finish distinct c = .ok ⟨⟨q.head.predicate, (c.restricted q.head.vars).head.vars⟩,
      if distinct then Row.distinct (c.restricted q.head.vars).rows
      else (c.restricted q.head.vars).rows⟩ := by
  have hregular : Batch.Regular ⟨⟨q.head.predicate, (c.restricted q.head.vars).head.vars⟩,
      (c.restricted q.head.vars).rows⟩ :=
    ⟨(hc.restricted q.head.vars).regular.wellShaped, (hc.restricted q.head.vars).comparable⟩
  unfold finish
  rw [Batch.project_eq hc.regular.wellShaped]
  change (if distinct then liftBatch (Batch.distinct ⟨⟨q.head.predicate, _⟩,
    (c.restricted q.head.vars).rows⟩) else pure _) = _
  split_ifs
  · rw [Batch.distinct_eq hregular]
    rfl
  · rfl

/-- What the evaluation of an acyclic query gives, unless it is Boolean. -/
theorem evaluate_eq {q : Query} (hready : ∀ a ∈ q.body, a.Ready) (hacyclic : q.isAcyclic = true)
    (hboolean : q.isBoolean = false) (distinct : Bool) :
    ∃ c : Batch, c.Clean ∧ (∀ v, v ∈ c.head.vars ↔ ∃ a ∈ q.openAtoms, v ∈ a.vars) ∧
      (∀ σ, c.weight σ = (q.openAtoms.map fun a => a.hits σ).prod) ∧
      q.head.vars.filter c.head.vars.contains = q.answerVariables ∧
      q.evaluate distinct = .ok (.batch ⟨⟨q.head.predicate, q.answerVariables⟩,
        if q.GroundAtomsMatch then
          if distinct then Row.distinct (c.restricted q.head.vars).rows
          else (c.restricted q.head.vars).rows
        else []⟩) := by
  obtain ⟨f, hf⟩ := Option.isSome_iff_exists.mp hacyclic
  have hspans := Forest.spans_of_forest? (merges_ofQuery q).distinct hf
  obtain ⟨up, down, joined, c, hpasses, -, hclean, hvars, hweight⟩ := hspans.exists_passes hready
  simp only [mem_vertices_iff] at hvars
  have hhead : q.head.vars.filter c.head.vars.contains = q.answerVariables := by
    apply List.filter_congr
    intro v _
    rw [Bool.eq_iff_iff, List.contains_iff_mem, List.contains_iff_mem, hvars,
      mem_bodyVariables_iff]
  refine ⟨c, hclean, hvars, hweight, hhead, ?_⟩
  rw [evaluate, run_eq hready hf]
  by_cases hground : q.GroundAtomsMatch
  · rw [if_pos hground, if_pos hground,
      hpasses.onForest_eq hboolean (finish_eq q distinct hclean), ← hhead]
    rfl
  · rw [if_neg hground, if_neg hground, hboolean]
    rfl

/-- The evaluation of an acyclic query gives each row as often as choices of
rows for its atoms give it, or once if repetitions are dropped. -/
theorem count_evaluate {q : Query} (hhead : q.head.vars ≠ []) (hready : ∀ a ∈ q.body, a.Ready)
    (hacyclic : q.isAcyclic = true) (distinct : Bool) :
    ∃ b, q.evaluate distinct = .ok (.batch b) ∧
      b.head = ⟨q.head.predicate, q.answerVariables⟩ ∧
      ∀ t : Row, t.count b.rows =
        if distinct then min 1 (q.multiplicity t) else q.multiplicity t := by
  have hboolean : q.isBoolean = false := by
    rw [isBoolean, List.isEmpty_eq_false_iff]
    exact hhead
  obtain ⟨c, hclean, hvars, hweight, hfilter, hevaluate⟩ :=
    evaluate_eq hready hacyclic hboolean distinct
  refine ⟨_, hevaluate, rfl, fun t => ?_⟩
  have hcount := count_restricted hclean hvars hweight q.head.vars t
  rw [hfilter] at hcount
  rw [multiplicity]
  by_cases hground : q.GroundAtomsMatch
  · rw [if_pos hground, if_pos hground]
    split_ifs
    · rw [Row.count_distinct, hcount]
    · exact hcount
  · rw [if_neg hground, if_neg hground]
    split_ifs <;> rfl

/-! ### A query with two trees -/

end Query

/-- An atom over two terms, bound to a relation with the given rows. -/
def Atom.ofPairs (name : String) (s t : Term) (pairs : List (Value × Value))
    (hpairs : ∀ p ∈ pairs, ∀ v ∈ [p.1, p.2], v.isComparable = true) : Atom where
  predicate := name
  terms := [s, t]
  relation := some
    { name := some name
      storage := .together
      columns := ["left", "right"]
      rows := pairs.map fun p => [p.1, p.2]
      width_eq := by
        intro r hr
        obtain ⟨p, -, rfl⟩ := List.mem_map.mp hr
        rfl
      definite := by
        intro r hr v hv
        obtain ⟨p, hp, rfl⟩ := List.mem_map.mp hr
        exact (Value.isComparable_iff.mp (hpairs p hp v hv)).2 }
  arity_eq := by
    intro r hr
    cases hr
    rfl

theorem Atom.ready_ofPairs {name : String} {s t : Term} {pairs : List (Value × Value)}
    (hpairs : ∀ p ∈ pairs, ∀ v ∈ [p.1, p.2], v.isComparable = true) :
    (ofPairs name s t pairs hpairs).Ready where
  bound := rfl
  isKey := by
    intro row hrow x hx
    obtain ⟨p, hp, rfl⟩ := List.mem_map.mp hrow
    exact (Value.isComparable_iff.mp (hpairs p hp x hx)).1

namespace Query

/-- A chain of atoms, the first of them given twice and over a relation with a
repeated row, a ground atom, and an atom apart from the chain. One variable of
the head occurs twice, another is not in the body. -/
def twoTrees : Query :=
  let r (s t : Term) : Atom :=
    .ofPairs "r" s t [(.int 1, .int 2), (.int 1, .int 2), (.bool true, .int 3)] (by decide)
  let s (s t : Term) : Atom :=
    .ofPairs "s" s t [(.int 2, .int 5), (.int 3, .text "five")] (by decide)
  { head := Head.ofVars ["x", "z", "u", "x"]
    body :=
      [r (.variable "x") (.variable "y"), s (.variable "y") (.variable "z"),
        r (.variable "x") (.variable "y"), s (.constant (.int 3)) (.constant (.text "five")),
        r (.variable "w") (.constant (.int 3))] }

theorem ready_twoTrees : ∀ a ∈ twoTrees.body, a.Ready := by
  simp only [twoTrees, List.forall_mem_cons]
  exact ⟨Atom.ready_ofPairs _, Atom.ready_ofPairs _, Atom.ready_ofPairs _, Atom.ready_ofPairs _,
    Atom.ready_ofPairs _, by simp⟩

theorem count_evaluate_twoTrees :
    ∃ b, twoTrees.evaluate false = .ok (.batch b) ∧ b.head = ⟨"Answer", ["x", "z", "x"]⟩ ∧
      Row.count [.int 1, .int 5, .int 1] b.rows = 4 ∧
      Row.count [.int 1, .text "five", .int 1] b.rows = 1 := by
  obtain ⟨b, hevaluate, hhead, hcount⟩ :=
    count_evaluate (q := twoTrees) (List.cons_ne_nil _ _) ready_twoTrees (by cbv) false
  have hvars : twoTrees.answerVariables = ["x", "z", "x"] := by decide +kernel
  refine ⟨b, hevaluate, ?_, ?_, ?_⟩
  · rw [hhead, hvars]
    rfl
  · rw [hcount]
    decide +kernel
  · rw [hcount]
    decide +kernel

/-! ### Deciding by the first pass -/

/-- Whether rows can be chosen for all atoms of a query, ground atoms included. -/
def Satisfiable (q : Query) : Prop :=
  ∃ choice ∈ choices q.body, ∃ σ, List.Forall₂ (Atom.Matches σ) q.body choice

theorem satisfiable_iff {q : Query} :
    q.Satisfiable ↔ q.GroundAtomsMatch ∧ ∃ σ, (ofQuery q).Solves σ := by
  rw [exists_solution_iff fun σ => solves_ofQuery_iff]
  simp only [← exists_choice_iff]
  constructor
  · rintro ⟨choice, hchoice, σ, hσ⟩
    exact ⟨σ, choice, hchoice, hσ⟩
  · rintro ⟨σ, choice, hchoice, hσ⟩
    exact ⟨choice, hchoice, σ, hσ⟩

/-- What the evaluation of an acyclic Boolean query gives. -/
theorem evaluate_of_isBoolean {q : Query} (hready : ∀ a ∈ q.body, a.Ready)
    (hacyclic : q.isAcyclic = true) (hboolean : q.isBoolean = true) (distinct : Bool) :
    ∃ b, q.evaluate distinct = .ok (.truth b) ∧ (b = true ↔ q.Satisfiable) ∧
      ∀ s ∈ (Evaluation.run q distinct).passes, s.phase = .reducingUp := by
  obtain ⟨f, hf⟩ := Option.isSome_iff_exists.mp hacyclic
  have hspans := Forest.spans_of_forest? (merges_ofQuery q).distinct hf
  rw [satisfiable_iff, evaluate, run_eq hready hf]
  by_cases hground : q.GroundAtomsMatch
  · obtain ⟨b, hanswer, hb, hpasses⟩ := hspans.onForest_of_isBoolean hready hboolean distinct
    rw [if_pos hground]
    exact ⟨b, hanswer, hb.trans (and_iff_right hground).symm, hpasses⟩
  · rw [if_neg hground, if_pos hboolean]
    exact ⟨false, rfl, by simp [hground], by simp⟩

theorem distinct_ne_nil_iff {rows : List Row} : Row.distinct rows ≠ [] ↔ rows ≠ [] := by
  constructor
  · rintro h rfl
    exact h rfl
  · intro h heq
    obtain ⟨r, hr⟩ := List.exists_mem_of_ne_nil _ h
    have hcount := Row.count_distinct r rows
    have hpos := Row.count_pos_of_mem hr
    rw [heq, Row.count_nil] at hcount
    omega

/-- An acyclic query that is not Boolean has an answer if it is satisfiable. -/
theorem rows_evaluate_ne_nil_iff {q : Query} (hready : ∀ a ∈ q.body, a.Ready)
    (hacyclic : q.isAcyclic = true) (hboolean : q.isBoolean = false) (distinct : Bool) :
    ∃ b, q.evaluate distinct = .ok (.batch b) ∧ (b.rows ≠ [] ↔ q.Satisfiable) := by
  obtain ⟨c, hclean, -, hweight, -, hevaluate⟩ := evaluate_eq hready hacyclic hboolean distinct
  refine ⟨_, hevaluate, ?_⟩
  have hrows : (c.restricted q.head.vars).rows ≠ [] ↔ ∃ σ, (ofQuery q).Solves σ := by
    rw [Batch.restricted, Ne, List.map_eq_nil_iff, ← Ne, hclean.rows_ne_nil_iff]
    simp only [hweight, prod_hits_pos_iff, solves_ofQuery_iff]
  rw [satisfiable_iff, ← hrows]
  by_cases hground : q.GroundAtomsMatch
  · rw [if_pos hground, and_iff_right hground]
    split_ifs
    · exact distinct_ne_nil_iff
    · exact Iff.rfl
  · simp [hground]

/-- The first pass decides: a Boolean query is true exactly if rows can be chosen
for its atoms, no other pass being made; and whether any other query has an
answer is what the Boolean query with its body tells. -/
theorem reducingUp_decides {q : Query} (hready : ∀ a ∈ q.body, a.Ready)
    (hacyclic : q.isAcyclic = true) (distinct : Bool) :
    (q.head.vars = [] → ∃ b, q.evaluate distinct = .ok (.truth b) ∧
      (b = true ↔ ∃ choice ∈ choices q.body, ∃ σ, List.Forall₂ (Atom.Matches σ) q.body choice) ∧
      ∀ s ∈ (Evaluation.run q distinct).passes, s.phase = .reducingUp) ∧
    (q.head.vars ≠ [] → ∃ t b, q.holds = .ok t ∧ q.evaluate distinct = .ok (.batch b) ∧
      (t = true ↔ b.rows ≠ [])) := by
  constructor
  · intro hhead
    exact evaluate_of_isBoolean hready hacyclic (List.isEmpty_iff.mpr hhead) distinct
  · intro hhead
    obtain ⟨b, hevaluate, hb⟩ := rows_evaluate_ne_nil_iff hready hacyclic
      (List.isEmpty_eq_false_iff.mpr hhead) distinct
    obtain ⟨t, htruth, ht, -⟩ := evaluate_of_isBoolean (q := q.toBoolean) hready hacyclic rfl true
    refine ⟨t, b, ?_, hevaluate, ht.trans hb.symm⟩
    rw [holds, htruth]
    rfl

theorem reducingUp_decides_twoTrees :
    (∃ b, twoTrees.toBoolean.evaluate false = .ok (.truth b) ∧
      (b = true ↔ ∃ choice ∈ choices twoTrees.body,
        ∃ σ, List.Forall₂ (Atom.Matches σ) twoTrees.body choice) ∧
      ∀ s ∈ (Evaluation.run twoTrees.toBoolean false).passes, s.phase = .reducingUp) ∧
    ∃ t b, twoTrees.holds = .ok t ∧ twoTrees.evaluate false = .ok (.batch b) ∧
      (t = true ↔ b.rows ≠ []) :=
  ⟨(reducingUp_decides (q := twoTrees.toBoolean) ready_twoTrees (by cbv) false).1 rfl,
    (reducingUp_decides ready_twoTrees (by cbv) false).2 (List.cons_ne_nil _ _)⟩

end Query

end Conjunctive
