import Conjunctive.Proofs.Evaluation.Answer
import Conjunctive.Proofs.Forest.Termination

/-!
# The turns of a pass

A pass takes the steps of an order, and each step reads the batches at some nodes and
writes the batch at one (`Pass`). If the order writes no node twice, and a step does not
read a node that it or a later one writes, its own node aside, then at each turn the node
has the batch it had before the pass, gets another one once and for all, and what is read
has its batch of the end of the pass (`Pass.InTurn`). The orders of the three passes over a
forest are such orders: for reducing from below and joining from below a node comes after
its children, for reducing from above a link comes after the one to its upper end.
-/

namespace Conjunctive

/-- A step of an evaluation that does not come to a node before it was visited. -/
def FindsNodes {α : Type} (x : Except EvaluationError α) : Prop :=
  ∀ vs, x ≠ .error (.unvisited vs)

/-- The steps of a pass. What is written at the target depends on what is read, and if this
is there, it is found. -/
structure Pass (α : Type) where
  target : α → Hyperedge
  reads : α → List Hyperedge
  value : NodeBatches → α → Except EvaluationError Batch
  value_congr : ∀ {s t : NodeBatches} {x : α},
    (∀ m ∈ reads x, s.find? m = t.find? m) → value s x = value t x
  finds : ∀ {s : NodeBatches} {x : α}, (∀ m ∈ reads x, s.Has m) → FindsNodes (value s x)

namespace Pass

variable {α : Type} (p : Pass α)

/-- One step of a pass. -/
def turn (s : NodeBatches) (x : α) : Except EvaluationError NodeBatches := do
  let b ← p.value s x
  pure (s.set (p.target x) b)

/-- The batches at the turn of a step: before the pass, before and after the turn, and at
the end of the pass. -/
structure Turn (x : α) (start s s' final : NodeBatches) : Prop where
  unwritten : s.find? (p.target x) = start.find? (p.target x)
  written : ∃ b, p.value s x = .ok b ∧ s'.find? (p.target x) = some b
  others : ∀ m, m.vertices ≠ (p.target x).vertices → s'.find? m = s.find? m
  kept : final.find? (p.target x) = s'.find? (p.target x)
  has : ∀ m ∈ p.reads x, s.Has m
  settled : ∀ m ∈ p.reads x, m ≠ p.target x → s.find? m = final.find? m

/-- From some batches an order of steps leads to others, each step in its turn. -/
def InTurn (order : List α) (start final : NodeBatches) : Prop :=
  ∀ before x after, order = before ++ x :: after → ∃ s s',
    before.foldlM p.turn start = .ok s ∧ p.turn s x = .ok s' ∧
      after.foldlM p.turn s' = .ok final ∧ p.Turn x start s s' final

/-- An order that writes no node twice and reads no node that it writes later. -/
structure Ordered (order : List α) (start : NodeBatches) : Prop where
  nodup : (order.map fun x => (p.target x).vertices).Nodup
  read_has : ∀ before x after, order = before ++ x :: after → ∀ m ∈ p.reads x,
    start.Has m ∨ ∃ y ∈ before, p.target y = m
  read_settled : ∀ before x after, order = before ++ x :: after → ∀ m ∈ p.reads x,
    m ≠ p.target x → ∀ y ∈ x :: after, (p.target y).vertices ≠ m.vertices

variable {p} {order : List α} {x : α} {m : Hyperedge} {s s' start final : NodeBatches}

theorem turn_eq_ok (h : p.turn s x = .ok s') :
    ∃ b, p.value s x = .ok b ∧ s' = s.set (p.target x) b := by
  obtain ⟨b, hb, hset⟩ := bind_eq_ok_iff.mp h
  cases hset
  exact ⟨b, hb, rfl⟩

/-- A step leaves all nodes but its target alone. -/
theorem find?_turn (h : p.turn s x = .ok s') (hm : (p.target x).vertices ≠ m.vertices) :
    s'.find? m = s.find? m := by
  obtain ⟨b, -, rfl⟩ := turn_eq_ok h
  rw [NodeBatches.find?_set, if_neg hm.symm]

theorem has_turn (h : p.turn s x = .ok s') (hm : s.Has m ∨ p.target x = m) : s'.Has m := by
  obtain ⟨b, -, rfl⟩ := turn_eq_ok h
  rcases hm with hm | rfl
  · exact NodeBatches.has_set hm
  · exact NodeBatches.has_set_self s _ b

/-- Steps leave all nodes but their targets alone. -/
theorem find?_foldlM (h : order.foldlM p.turn s = .ok s')
    (hm : ∀ y ∈ order, (p.target y).vertices ≠ m.vertices) : s'.find? m = s.find? m := by
  induction order generalizing s with
  | nil =>
      cases h
      rfl
  | cons x order ih =>
      obtain ⟨t, hx, hrest⟩ := bind_eq_ok_iff.mp h
      rw [ih hrest fun y hy => hm y (List.mem_cons_of_mem x hy)]
      exact find?_turn hx (hm x List.mem_cons_self)

theorem has_foldlM (h : order.foldlM p.turn s = .ok s')
    (hm : s.Has m ∨ ∃ y ∈ order, p.target y = m) : s'.Has m := by
  induction order generalizing s with
  | nil =>
      cases h
      exact hm.resolve_right nofun
  | cons x order ih =>
      obtain ⟨t, hx, hrest⟩ := bind_eq_ok_iff.mp h
      refine ih hrest ?_
      rcases hm with hm | ⟨y, hy, hym⟩
      · exact Or.inl (has_turn hx (Or.inl hm))
      · rcases List.mem_cons.mp hy with rfl | hy
        · exact Or.inl (has_turn hx (Or.inr hym))
        · exact Or.inr ⟨y, hy, hym⟩

namespace Ordered

/-- The steps of an order are taken in their turn. -/
theorem inTurn (h : p.Ordered order start) (hrun : order.foldlM p.turn start = .ok final) :
    p.InTurn order start final := by
  rintro before x after rfl
  rw [List.foldlM_append, bind_eq_ok_iff] at hrun
  obtain ⟨s, hbefore, hrun⟩ := hrun
  obtain ⟨s', hx, hafter⟩ := bind_eq_ok_iff.mp hrun
  have hnodup := h.nodup
  rw [List.map_append, List.map_cons, List.nodup_append] at hnodup
  obtain ⟨-, hlater, hearlier⟩ := hnodup
  have hhas := h.read_has before x after rfl
  have hsettled := h.read_settled before x after rfl
  obtain ⟨b, hb, rfl⟩ := turn_eq_ok hx
  refine ⟨s, _, hbefore, hx, hafter, ?_, ⟨b, hb, ?_⟩, fun m hm => ?_, ?_, fun m hm => ?_,
    fun m hm hne => ?_⟩
  · refine find?_foldlM hbefore fun y hy => ?_
    exact hearlier _ (List.mem_map_of_mem hy) _ List.mem_cons_self
  · rw [NodeBatches.find?_set, if_pos rfl]
  · exact find?_turn hx hm.symm
  · refine find?_foldlM hafter fun y hy heq => (List.nodup_cons.mp hlater).1 ?_
    exact heq ▸ List.mem_map_of_mem (f := fun y => (p.target y).vertices) hy
  · exact has_foldlM hbefore (hhas m hm)
  · have hleft := hsettled m hm hne
    rw [find?_foldlM hafter fun y hy => hleft y (List.mem_cons_of_mem x hy)]
    exact (find?_turn hx (hleft x List.mem_cons_self)).symm

/-- The steps of an order find the nodes that they read. -/
theorem finds (h : p.Ordered order start) : FindsNodes (order.foldlM p.turn start) := by
  intro vs hrun
  obtain ⟨before, x, after, s, hsplit, hbefore, hx⟩ := exists_of_foldlM_eq_error hrun
  rcases bind_eq_error_iff.mp hx with hvalue | ⟨b, -, hset⟩
  · refine p.finds (fun m hm => ?_) vs hvalue
    exact has_foldlM hbefore (h.read_has before x after hsplit m hm)
  · cases hset

end Ordered

end Pass

end Conjunctive
