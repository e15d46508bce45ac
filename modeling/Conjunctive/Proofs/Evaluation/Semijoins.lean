import Conjunctive.Proofs.Batch.Intersection
import Conjunctive.Proofs.Batch.Join
import Conjunctive.Proofs.Evaluation.Nodes

/-!
# Filtering by all children

A node gets the rows that solve its atoms, and of these it keeps the intersection of
their semijoins with the children, up to the first that is empty. This is the same as
semijoining them with one child after the other, in any order: what is left are the
rows that have a partner in every child, as often and in the order as they were.
-/

namespace Conjunctive

open Row

namespace Batch

/-- Whether a batch has a partner for a row under given labels. -/
def hasPartner (b : Batch) (vars : List String) (r : Row) : Bool :=
  b.rows.any fun s => compatible vars b.head.vars r s

theorem respects_hasPartner (b : Batch) (vars : List String) :
    Respects fun r => b.hasPartner vars r := by
  intro r r' h
  unfold hasPartner
  refine congrArg (List.any _) ?_
  funext t
  exact compatible_congr h t

/-- Among cells that equal themselves, a partner has equal cells. -/
theorem hasPartner_eq {b : Batch} {vars : List String} {r : Row}
    (hr : ∀ x ∈ r, x.isComparable = true) (hb : b.Regular) :
    b.hasPartner vars r = b.rows.any fun t => relates Value.equals vars b.head.vars r t := by
  rw [Bool.eq_iff_iff, hasPartner, List.any_eq_true, List.any_eq_true]
  refine exists_congr fun t => and_congr_right fun ht => ?_
  rw [relates_equals hr (hb.comparable t ht)]

/-- The rows of a batch that have a partner in each of some others. -/
def filteredBy (b : Batch) (others : List Batch) : Batch :=
  ⟨b.head, b.rows.filter fun r => others.all fun c => c.hasPartner b.head.vars r⟩

theorem filteredBy_perm (b : Batch) {others others' : List Batch} (h : others.Perm others') :
    b.filteredBy others = b.filteredBy others' := by
  refine congrArg (Batch.mk b.head) (List.filter_congr fun r _ => ?_)
  rw [Bool.eq_iff_iff, List.all_eq_true, List.all_eq_true]
  simp only [h.mem_iff]

/-- Semijoins with one batch after the other filter by all of them. -/
theorem foldlM_semijoin_eq {b : Batch} (hb : b.Regular) {others : List Batch}
    (hothers : ∀ c ∈ others, c.Regular) :
    others.foldlM semijoin b = .ok (b.filteredBy others) := by
  induction others generalizing b with
  | nil => simp [filteredBy, pure, Except.pure]
  | cons c others ih =>
      obtain ⟨hc, hothers⟩ := List.forall_mem_cons.mp hothers
      rw [List.foldlM_cons, semijoin_eq hb hc]
      change others.foldlM semijoin ⟨b.head, b.rows.filter (c.hasPartner b.head.vars)⟩ = _
      rw [ih (regular_filter hb _) hothers, filteredBy, List.filter_filter]
      refine congrArg (fun rows => Except.ok (Batch.mk b.head rows)) (List.filter_congr ?_)
      intro r _
      rw [List.all_cons, Bool.and_comm]

end Batch

namespace Forest

/-- The semijoins with some nodes are parts of the batch, up to the first empty
one. A row is in all of these if and only if it has a partner at every node. -/
theorem semijoins_eq {s : NodeBatches} {b : Batch} (hb : b.Regular) {ns : List Hyperedge}
    {children : List Batch} (hget : List.Forall₂ (fun n c => s.get n = .ok c) ns children)
    (hchildren : ∀ c ∈ children, c.Regular) :
    ∃ tests, semijoins s b ns = .ok (Batch.parts b.head b.rows tests) ∧
      (∀ p ∈ tests, Respects p) ∧ (ns ≠ [] → tests ≠ []) ∧
      ∀ r ∈ b.rows, tests.all (fun p => p r) =
        children.all fun c => c.hasPartner b.head.vars r := by
  induction hget with
  | nil => exact ⟨[], rfl, by simp, by simp, by simp⟩
  | @cons n c ns children hn _ ih =>
      obtain ⟨hc, hchildren⟩ := List.forall_mem_cons.mp hchildren
      obtain ⟨tests, hrun, hrespects, -, hall⟩ := ih hchildren
      have hsemijoin : semijoins s b (n :: ns) =
          if (b.rows.filter (c.hasPartner b.head.vars)).isEmpty then
            .ok [⟨b.head, b.rows.filter (c.hasPartner b.head.vars)⟩]
          else .ok (⟨b.head, b.rows.filter (c.hasPartner b.head.vars)⟩ ::
            Batch.parts b.head b.rows tests) := by
        rw [semijoins, hn]
        change (liftBatch (b.semijoin c) >>= _) = _
        rw [Batch.semijoin_eq hb hc, hrun]
        rfl
      rw [hsemijoin]
      split_ifs with hempty
      · refine ⟨[c.hasPartner b.head.vars], rfl, ?_, by simp, fun r hr => ?_⟩
        · intro p hp
          rw [List.mem_singleton.mp hp]
          exact c.respects_hasPartner b.head.vars
        · have hnone : c.hasPartner b.head.vars r = false := by
            rw [List.isEmpty_iff, List.filter_eq_nil_iff] at hempty
            exact Bool.eq_false_iff.mpr (hempty r hr)
          simp [hnone]
      · refine ⟨c.hasPartner b.head.vars :: tests, rfl, ?_, by simp, fun r hr => ?_⟩
        · intro p hp
          rcases List.mem_cons.mp hp with rfl | hp
          · exact c.respects_hasPartner b.head.vars
          · exact hrespects p hp
        · rw [List.all_cons, List.all_cons, hall r hr]

/-- The intersection of the semijoins filters by all of the nodes. -/
theorem intersect_semijoins_eq {s : NodeBatches} {b : Batch} (hb : b.Regular)
    {ns : List Hyperedge} (hne : ns ≠ []) {children : List Batch}
    (hget : List.Forall₂ (fun n c => s.get n = .ok c) ns children)
    (hchildren : ∀ c ∈ children, c.Regular) :
    (semijoins s b ns >>= fun parts => liftBatch (Batch.intersect parts)) =
      .ok (b.filteredBy children) := by
  obtain ⟨tests, hrun, hrespects, hnil, hall⟩ := semijoins_eq hb hget hchildren
  rw [hrun]
  change liftBatch (Batch.intersect (Batch.parts b.head b.rows tests)) = _
  rw [Batch.intersect_parts hb (hnil hne) hrespects, Batch.filteredBy, List.filter_congr hall]
  rfl

theorem forall₂_get {s : NodeBatches} {ns : List Hyperedge} (h : ∀ n ∈ ns, s.Has n) :
    List.Forall₂ (fun n c => s.get n = .ok c) ns (ns.map s.batch) := by
  rw [List.forall₂_map_right_iff, List.forall₂_same]
  exact fun n hn => NodeBatches.get_eq (h n hn)

/-! ### Reducing a node -/

section ReduceNode

variable {f : Forest} {s : NodeBatches} {n : Hyperedge} {own : Batch}

/-- A node without children keeps all the rows that solve its atoms. -/
theorem reduceNode_of_leaf (hleaf : f.children n = [])
    (hscan : scanAll n.atoms n.vertices = .ok own) :
    f.reduceNode s n = .ok (s.set n own) := by
  rw [reduceNode, hscan, hleaf]
  rfl

/-- A node with children keeps those that have a partner in each of them. -/
theorem reduceNode_of_children (hscan : scanAll n.atoms n.vertices = .ok own) (hown : own.Regular)
    (hinner : f.children n ≠ []) {children : List Batch}
    (hget : List.Forall₂ (fun n c => s.get n = .ok c) (f.children n) children)
    (hchildren : ∀ c ∈ children, c.Regular) :
    f.reduceNode s n = .ok (s.set n (own.filteredBy children)) := by
  obtain ⟨parts, hparts, hintersect⟩ :=
    bind_eq_ok_iff.mp (intersect_semijoins_eq hown hinner hget hchildren)
  obtain ⟨c, cs, hcs⟩ := List.exists_cons_of_ne_nil hinner
  rw [hcs] at hparts
  rw [reduceNode, hscan, hcs]
  change (semijoins s own (c :: cs) >>= fun reduced =>
    liftBatch (Batch.intersect reduced) >>= fun own => pure (s.set n own)) = _
  rw [hparts]
  change (liftBatch (Batch.intersect parts) >>= _) = _
  rw [hintersect]
  rfl

end ReduceNode

/-- Collecting the semijoins with the children and intersecting them keeps exactly the rows
that have equal cells under shared labels with some row of every child, as often and in the
order as they were. So do semijoins with one child after the other, in any order, and this is
what a node with these children gets from below. -/
theorem semijoins_filter_by_children {s : NodeBatches} {b : Batch} {ns : List Hyperedge}
    {children : List Batch} (hb : b.Regular) (hne : ns ≠ [])
    (hget : List.Forall₂ (fun n c => s.get n = .ok c) ns children)
    (hchildren : ∀ c ∈ children, c.Regular) :
    ∃ reduced : Batch, reduced.head = b.head ∧
      reduced.rows = (b.rows.filter fun r => children.all fun c =>
        c.rows.any fun t => relates Value.equals b.head.vars c.head.vars r t) ∧
      (semijoins s b ns >>= fun parts => liftBatch (Batch.intersect parts)) = .ok reduced ∧
      (∀ order : List Batch, order.Perm children →
        order.foldlM Batch.semijoin b = .ok reduced) ∧
      ∀ (f : Forest) (n : Hyperedge), f.children n = ns → scanAll n.atoms n.vertices = .ok b →
        f.reduceNode s n = .ok (s.set n reduced) := by
  refine ⟨b.filteredBy children, rfl, ?_, intersect_semijoins_eq hb hne hget hchildren, ?_, ?_⟩
  · refine List.filter_congr fun r hr => ?_
    rw [Bool.eq_iff_iff, List.all_eq_true, List.all_eq_true]
    refine forall₂_congr fun c hc => ?_
    rw [Batch.hasPartner_eq (hb.comparable r hr) (hchildren c hc)]
  · intro order hperm
    rw [← b.filteredBy_perm hperm]
    exact Batch.foldlM_semijoin_eq hb fun c hc => hchildren c (hperm.mem_iff.mp hc)
  · rintro f n rfl hscan
    exact reduceNode_of_children hscan hb hne hget hchildren

/-- One row occurs three times, twice with a truth value for the number 1. The third
child has a row that disagrees with itself, which is a partner of none. -/
theorem semijoins_filter_by_children_repeatedColumns :
    let b : Batch := ⟨Head.ofVars ["x", "y"],
      [[.int 1, .int 2], [.bool true, .int 2], [.int 3, .int 4], [.null, .int 2], [.int 1, .int 2]]⟩
    let c : Batch := ⟨Head.ofVars ["y", "z"],
      [[.int 2, .text "p"], [.int 4, .null], [.int 2, .text "q"]]⟩
    let d : Batch := ⟨Head.ofVars ["x", "x"], [[.int 1, .bool true], [.int 3, .int 4]]⟩
    let e : Batch := ⟨Head.ofVars ["u"], [[.unbound]]⟩
    let nodes : List Hyperedge := [⟨["y", "z"], []⟩, ⟨["x"], []⟩, ⟨["u"], []⟩]
    let s : NodeBatches := ⟨nodes.zip [c, d, e]⟩
    let rows : List Row := [[.int 1, .int 2], [.bool true, .int 2], [.int 1, .int 2]]
    (semijoins s b nodes >>= fun parts => liftBatch (Batch.intersect parts)) =
        .ok ⟨b.head, rows⟩ ∧
      [e, d, c].foldlM Batch.semijoin b = .ok ⟨b.head, rows⟩ := by
  intro b c d e nodes s rows
  have hb : b.Regular := ⟨by unfold Batch.WellShaped; decide, by decide⟩
  have hchildren : ∀ x ∈ [c, d, e], x.Regular := by
    simp only [List.forall_mem_cons]
    exact ⟨⟨by unfold Batch.WellShaped; decide, by decide⟩,
      ⟨by unfold Batch.WellShaped; decide, by decide⟩,
      ⟨by unfold Batch.WellShaped; decide, by decide⟩, by simp⟩
  have hget : List.Forall₂ (fun n x => s.get n = .ok x) nodes [c, d, e] :=
    .cons rfl (.cons rfl (.cons rfl .nil))
  obtain ⟨reduced, hhead, hrows, hcollect, hfold, -⟩ :=
    semijoins_filter_by_children hb (List.cons_ne_nil _ _) hget hchildren
  have hreduced : reduced = ⟨b.head, rows⟩ := by
    obtain ⟨head, found⟩ := reduced
    dsimp only at hhead hrows
    rw [hhead, hrows]
    rfl
  rw [hreduced] at hcollect hfold
  exact ⟨hcollect, hfold [e, d, c] (List.reverse_perm [c, d, e])⟩

/-- A float that is not a number: its row is kept for a child with the same object in one
column, though no cell equals it, and dropped for a child with the object in two columns,
though the cells are the same. -/
theorem semijoins_filter_by_children_notANumber :
    let x : Value := .float (0 / 0)
    let b : Batch := ⟨Head.ofVars ["x"], [[x]]⟩
    let twoColumns : Batch := ⟨Head.ofVars ["x", "x"], [[x, x]]⟩
    let n : Hyperedge := ⟨["x"], []⟩
    let reduced (c : Batch) : Except EvaluationError Batch :=
      semijoins ⟨[(n, c)]⟩ b [n] >>= fun parts => liftBatch (Batch.intersect parts)
    let filtered (related : Value → Value → Bool) (c : Batch) : List Row :=
      b.rows.filter fun r => c.rows.any fun t => relates related b.head.vars c.head.vars r t
    (reduced b).toOption.map Batch.rows ≠ some (filtered Value.equals b) ∧
      (reduced twoColumns).toOption.map Batch.rows ≠ some (filtered Value.same twoColumns) := by
  refine ⟨fun h => ?_, fun h => ?_⟩ <;>
  · have hlength := congrArg (Option.map List.length) h
    revert hlength
    decide +kernel

end Forest

end Conjunctive
