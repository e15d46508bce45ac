import Conjunctive.Proofs.Evaluation.Choices
import Mathlib.Algebra.BigOperators.Group.List.Basic

/-!
# The atoms of one node as a conjunction

Over a head with just the variables of some atoms, solving the atoms together gives each
row as often as there are choices of one row for each atom that give it
(`scanAll_solves`). So the order of the atoms does not matter, and neither does it matter
that the loop over the atoms stops at an empty batch: no later join brings rows back, and
the columns that these joins would add are copies that the last projection drops.
-/

namespace Conjunctive

namespace Batch

/-- The row that has the values of an assignment is counted by the weight. -/
theorem count_eq_weight {b : Batch} {t : Row} {σ : Assignment}
    (ht : t.denotation = b.head.vars.map σ) : t.count b.rows = b.weight σ := by
  apply List.countP_congr
  intro r _
  rw [Row.same_iff, ht, decide_eq_true_iff, eq_comm]

theorem Clean.count_eq_zero {b : Batch} (hb : b.Clean) {t : Row}
    (ht : ∀ σ : Assignment, t.denotation ≠ b.head.vars.map σ) : t.count b.rows = 0 := by
  rw [Row.count, List.countP_eq_zero]
  intro r hr hsame
  obtain ⟨σ, hσ⟩ := hb.coherent r hr
  exact ht σ ((Row.same_iff.mp hsame).trans hσ)

/-- Weights tell the bag of rows. -/
theorem Clean.count_eq_of_weight_eq {b c : Batch} (hb : b.Clean) (hc : c.Clean)
    (hvars : b.head.vars = c.head.vars) (hweight : ∀ σ, b.weight σ = c.weight σ) (t : Row) :
    t.count b.rows = t.count c.rows := by
  by_cases ht : ∃ σ : Assignment, t.denotation = b.head.vars.map σ
  · obtain ⟨σ, hσ⟩ := ht
    rw [count_eq_weight hσ, count_eq_weight (hvars ▸ hσ), hweight]
  · rw [not_exists] at ht
    rw [hb.count_eq_zero ht, hc.count_eq_zero (hvars ▸ ht)]

/-- A batch in the course of solving some atoms over a head: its columns are those of the
head, in some order and perhaps several times. -/
structure Over (b : Batch) (head : List String) : Prop where
  clean : b.Clean
  predicate_eq : b.head.predicate = Head.defaultPredicate
  mem_vars_iff : ∀ v, v ∈ b.head.vars ↔ v ∈ head

namespace Over

variable {b c : Batch} {head : List String}

theorem head_restricted (h : b.Over head) : (b.restricted head).head = Head.ofVars head := by
  have hvars : head.filter b.head.vars.contains = head := by
    rw [List.filter_eq_self]
    intro v hv
    rw [List.contains_iff_mem]
    exact (h.mem_vars_iff v).mpr hv
  exact congrArg₂ Head.mk h.predicate_eq hvars

theorem joined (hb : b.Over head) (hc : c.Over head) :
    Over ⟨b.head.append c.head, b.joined c⟩ head where
  clean := hb.clean.joined hc.clean
  predicate_eq := hb.predicate_eq
  mem_vars_iff := by
    intro v
    change v ∈ b.head.vars ++ c.head.vars ↔ _
    rw [List.mem_append, hb.mem_vars_iff, hc.mem_vars_iff, or_self]

end Over

/-- A join with an empty batch is empty. -/
theorem joined_eq_nil {b : Batch} (hb : b.rows = []) (c : Batch) : b.joined c = [] := by
  rw [List.eq_nil_iff_forall_not_mem]
  intro t ht
  obtain ⟨r, hr, -⟩ := mem_joined.mp ht
  rw [hb] at hr
  cases hr

end Batch

theorem Solvable.over_scanned {a : Atom} {atoms : List Atom} {head : List String}
    (h : Solvable atoms head) (ha : a ∈ atoms) : (a.scanned head).Over head where
  clean := Atom.clean_scanned (h a ha).1 head
  predicate_eq := rfl
  mem_vars_iff := by
    intro v
    change v ∈ a.columnsIn head ↔ _
    rw [Atom.columnsIn_eq_self (h a ha).2]

/-- Join a batch with the scan of an atom. -/
def joinScan (head : List String) (b : Batch) (a : Atom) : Except EvaluationError Batch := do
  let scanned ← a.scan head
  liftBatch (b.join scanned)

/-- Solve some atoms together, over a head, and go on when nothing is left. -/
def scanAllThrough (atoms : List Atom) (head : List String) : Except EvaluationError Batch :=
  match atoms with
  | [] => pure (Batch.empty (Head.ofVars head))
  | [a] => a.scan head
  | a :: as => do
    let first ← a.scan head
    let joined ← as.foldlM (joinScan head) first
    liftBatch (joined.project head)

section Loop

variable {head : List String} {b : Batch}

theorem joinScan_eq {a : Atom} {as : List Atom} (has : Solvable as head) (ha : a ∈ as)
    (hb : b.Over head) : joinScan head b a =
      .ok ⟨b.head.append (a.scanned head).head, b.joined (a.scanned head)⟩ := by
  rw [joinScan, Atom.scan_eq (has a ha).1]
  change liftBatch (b.join (a.scanned head)) = _
  rw [Batch.join_eq hb.clean.regular (has.over_scanned ha).clean.regular]
  rfl

/-- Once a batch is empty, it stays empty. -/
theorem foldlM_joinScan_eq {as : List Atom} (has : Solvable as head) (hb : b.Over head) :
    ∃ c, as.foldlM (joinScan head) b = .ok c ∧ c.Over head ∧ (b.rows = [] → c.rows = []) := by
  induction as generalizing b with
  | nil => exact ⟨b, rfl, hb, id⟩
  | cons a as ih =>
      have ha : a ∈ a :: as := List.mem_cons_self
      obtain ⟨c, hrun, hc, hempty⟩ := ih has.of_cons (hb.joined (has.over_scanned ha))
      refine ⟨c, ?_, hc, fun hrows => hempty (Batch.joined_eq_nil hrows _)⟩
      rw [List.foldlM_cons, joinScan_eq has ha hb]
      exact hrun

/-- Stopping early ends at the same batch, or both ways end at an empty one. -/
theorem joinScans_eq_foldlM {as : List Atom} (has : Solvable as head) (hb : b.Over head) :
    ∃ c d, joinScans head b as = .ok c ∧ as.foldlM (joinScan head) b = .ok d ∧
      c.Over head ∧ d.Over head ∧ (c = d ∨ c.rows = [] ∧ d.rows = []) := by
  induction as generalizing b with
  | nil => exact ⟨b, b, rfl, rfl, hb, hb, Or.inl rfl⟩
  | cons a as ih =>
      have ha : a ∈ a :: as := List.mem_cons_self
      rw [joinScans]
      split_ifs with hempty
      · have hrows := Batch.isEmpty_iff.mp hempty
        obtain ⟨d, hrun, hd, hnil⟩ := foldlM_joinScan_eq has hb
        exact ⟨b, d, rfl, hrun, hb, hd, Or.inr ⟨hrows, hnil hrows⟩⟩
      · obtain ⟨c, d, hstop, hthrough, hspec⟩ :=
          ih has.of_cons (hb.joined (has.over_scanned ha))
        have hstep := joinScan_eq has ha hb
        refine ⟨c, d, ?_, ?_, hspec⟩
        · rw [← bind_assoc]
          change (joinScan head b a >>= _) = _
          rw [hstep]
          exact hstop
        · rw [List.foldlM_cons, hstep]
          exact hthrough

end Loop

section Node

variable {atoms : List Atom} {head : List String}

theorem liftBatch_project_eq {b : Batch} (hb : b.Over head) :
    liftBatch (b.project head) = .ok (b.restricted head) := by
  rw [Batch.project_eq hb.clean.regular.wellShaped]
  rfl

/-- To stop at an empty batch saves work and changes nothing. -/
theorem scanAll_eq_scanAllThrough (hatoms : Solvable atoms head) (hne : atoms ≠ []) :
    ∃ b, scanAll atoms head = .ok b ∧ scanAllThrough atoms head = .ok b ∧
      b.head = Head.ofVars head := by
  match atoms, hne with
  | [a], _ =>
      obtain ⟨hready, hvars⟩ := hatoms a List.mem_cons_self
      exact ⟨a.scanned head, Atom.scan_eq hready head, Atom.scan_eq hready head,
        congrArg Head.ofVars (Atom.columnsIn_eq_self hvars)⟩
  | a :: a' :: as, _ =>
      have hscan := Atom.scan_eq (hatoms a List.mem_cons_self).1 head
      obtain ⟨c, d, hstop, hthrough, hc, hd, hsame⟩ :=
        joinScans_eq_foldlM hatoms.of_cons (hatoms.over_scanned List.mem_cons_self)
      have hrestricted : d.restricted head = c.restricted head := by
        rcases hsame with rfl | ⟨hcrows, hdrows⟩
        · rfl
        · refine congrArg₂ Batch.mk (hd.head_restricted.trans hc.head_restricted.symm) ?_
          rw [hcrows, hdrows, List.map_nil, List.map_nil]
      refine ⟨c.restricted head, ?_, ?_, hc.head_restricted⟩
      · dsimp only [scanAll]
        rw [hscan]
        change (joinScans head (a.scanned head) (a' :: as) >>= _) = _
        rw [hstop]
        exact liftBatch_project_eq hc
      · dsimp only [scanAllThrough]
        rw [hscan]
        change ((a' :: as).foldlM (joinScan head) (a.scanned head) >>= _) = _
        rw [hthrough, ← hrestricted]
        exact liftBatch_project_eq hd

/-- A batch over its own variables has each row as often as it is given. -/
theorem count_eq_countP_choices {b : Batch} (hb : b.Clean)
    (hvars : ∀ v, v ∈ b.head.vars ↔ ∃ a ∈ atoms, v ∈ a.vars)
    (hweight : ∀ σ, b.weight σ = (atoms.map fun a => a.hits σ).prod) (t : Row) :
    t.count b.rows = (choices atoms).countP fun choice => Gives atoms b.head.vars t choice := by
  have hfilter : b.head.vars.filter b.head.vars.contains = b.head.vars := by simp
  have hself : t.count (b.restricted b.head.vars).rows = t.count b.rows := by
    rw [Row.count, Batch.restricted, List.countP_map]
    apply List.countP_congr
    intro r hr
    obtain ⟨σ, hσ⟩ := hb.coherent r hr
    rw [Function.comp_apply, Row.same_iff, Row.same_iff, Batch.denotation_restrict hσ, hfilter, hσ]
  have hcount := count_restricted hb hvars hweight b.head.vars t
  rwa [hself, hfilter] at hcount

/-- What either loop gives, the one that stops and the one that does not. -/
theorem scanAll_spec (hne : atoms ≠ []) (hatoms : Solvable atoms head) :
    ∃ b, scanAll atoms head = .ok b ∧ scanAllThrough atoms head = .ok b ∧
      b.head = Head.ofVars head ∧ b.Clean ∧
      ∀ σ, b.weight σ = (atoms.map fun a => a.hits σ).prod := by
  obtain ⟨b, hscan, hthrough, hhead⟩ := scanAll_eq_scanAllThrough hatoms hne
  obtain ⟨c, hscan', hclean, -, hweight⟩ := scanAll_eq hne hatoms
  obtain rfl := Except.ok.inj (hscan.symm.trans hscan')
  exact ⟨b, hscan, hthrough, hhead, hclean, hweight⟩

/-- The atoms of a node are solved as a conjunction: the batch has the columns of the head,
and each row as often as rows can be chosen for the atoms that give it under one
assignment. To stop at an empty batch changes nothing, and the order of the atoms changes
the order of the rows at most. -/
theorem scanAll_solves (hne : atoms ≠ []) (hatoms : Solvable atoms head) :
    ∃ b, scanAll atoms head = .ok b ∧ b.head = Head.ofVars head ∧
      (∀ t : Row, t.count b.rows =
        (choices atoms).countP fun choice => Gives atoms head t choice) ∧
      scanAllThrough atoms head = .ok b ∧
      ∀ order : List Atom, order.Perm atoms → ∃ c, scanAll order head = .ok c ∧
        c.head = b.head ∧ ∀ t : Row, t.count c.rows = t.count b.rows := by
  obtain ⟨b, hscan, hthrough, hhead, hclean, hweight⟩ :=
    scanAll_spec hne hatoms
  refine ⟨b, hscan, hhead, fun t => ?_, hthrough, fun order hperm => ?_⟩
  · obtain ⟨a, ha⟩ := List.exists_mem_of_ne_nil _ hne
    have hvars : ∀ v, v ∈ b.head.vars ↔ ∃ a ∈ atoms, v ∈ a.vars := by
      rw [hhead]
      intro v
      exact ⟨fun hv => ⟨a, ha, ((hatoms a ha).2 v).mpr hv⟩,
        fun ⟨a', ha', hv⟩ => ((hatoms a' ha').2 v).mp hv⟩
    rw [count_eq_countP_choices hclean hvars hweight, hhead]
    rfl
  · have hne' : order ≠ [] := fun h => hne (List.nil_perm.mp (h ▸ hperm))
    obtain ⟨c, hscan', -, hhead', hclean', hweight'⟩ :=
      scanAll_spec hne' fun a ha => hatoms a (hperm.mem_iff.mp ha)
    refine ⟨c, hscan', hhead'.trans hhead.symm, ?_⟩
    refine hclean'.count_eq_of_weight_eq hclean (by rw [hhead, hhead']) fun σ => ?_
    rw [hweight, hweight', (hperm.map _).prod_eq]

end Node

/-- An atom that is bound to a relation with the given rows. -/
def Atom.ofRows (name : String) (terms : List Term) (rows : List Row)
    (hrows : ∀ r ∈ rows, r.length = terms.length)
    (hcells : ∀ r ∈ rows, ∀ v ∈ r, v.isNotANumber = false) : Atom where
  predicate := name
  terms := terms
  relation := some
    { name := some name
      storage := .together
      columns := terms.map Term.display
      rows := rows
      width_eq := by simpa using hrows
      definite := hcells }
  arity_eq := by
    intro r hr
    cases hr
    simp [Relation.arity]

/-- Three atoms over two variables, which come in either order. In the first there is a
constant and one of the variables twice, and the last is given twice. -/
def crossing : List Atom :=
  let s := Atom.ofRows "s" [.variable "y", .variable "x"]
    [[.text "p", .int 1], [.null, .int 2], [.text "p", .bool true]] (by decide) (by decide)
  [.ofRows "r" [.variable "x", .variable "y", .variable "x", .constant (.int 3)]
    [[.int 1, .text "p", .bool true, .int 3], [.int 1, .text "p", .int 2, .int 3],
      [.int 2, .null, .int 2, .int 4], [.int 1, .text "p", .int 1, .int 3]] (by decide)
    (by decide), s, s]

theorem solvable_crossing : Solvable crossing ["y", "x"] := by
  have hready : ∀ a ∈ crossing, a.Ready := by
    simp only [crossing, List.forall_mem_cons]
    exact ⟨⟨rfl, by decide⟩, ⟨rfl, by decide⟩, ⟨rfl, by decide⟩, by simp⟩
  have hvars : ∀ a ∈ crossing, a.vars = ["x", "y"] ∨ a.vars = ["y", "x"] := by
    simp only [crossing, List.forall_mem_cons]
    exact ⟨Or.inl (by decide +kernel), Or.inr (by decide +kernel), Or.inr (by decide +kernel),
      by simp⟩
  intro a ha
  refine ⟨hready a ha, fun v => ?_⟩
  rcases hvars a ha with h | h
  · simp [h, or_comm]
  · rw [h]

theorem scanAll_solves_crossing :
    ∃ b, scanAll crossing ["y", "x"] = .ok b ∧ b.head = Head.ofVars ["y", "x"] ∧
      Row.count [.text "p", .int 1] b.rows = 8 ∧ Row.count [.null, .int 2] b.rows = 0 ∧
      scanAllThrough crossing ["y", "x"] = .ok b ∧
      ∃ c, scanAll crossing.reverse ["y", "x"] = .ok c ∧ c.head = b.head ∧
        Row.count [.text "p", .int 1] c.rows = 8 := by
  obtain ⟨b, hscan, hhead, hcount, hthrough, horder⟩ :=
    scanAll_solves (List.cons_ne_nil _ _) solvable_crossing
  obtain ⟨c, hreverse, hsame, hbag⟩ := horder crossing.reverse (List.reverse_perm crossing)
  have height : Row.count [.text "p", .int 1] b.rows = 8 := by
    rw [hcount]
    decide +kernel
  refine ⟨b, hscan, hhead, height, ?_, hthrough, c, hreverse, hsame, (hbag _).trans height⟩
  rw [hcount]
  decide +kernel

end Conjunctive
