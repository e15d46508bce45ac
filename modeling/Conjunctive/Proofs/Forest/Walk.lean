import Conjunctive.Forest.Walk
import Conjunctive.Proofs.Forest.Links

/-!
# The order of walks

`f.Visits done order` says that an order goes on from some nodes that are done,
takes no node twice, and takes each after its children. The walk from below is
such an order and leaves no node out. Between two levels the nodes done are
closed under children, and the level has exactly those further nodes whose
children are done (`Frontier`); so each level is new, and the bound on the
number of levels is never felt.
-/

namespace Conjunctive

open Conjunctive.Hypergraph

namespace Forest

/-- The nodes of an order are new and come after their children. -/
def Visits (f : Forest) : List Hyperedge → List Hyperedge → Prop
  | _, [] => True
  | done, n :: order =>
    n ∉ done ∧ (∀ c ∈ f.children n, c ∈ done) ∧ f.Visits (done ++ [n]) order

/-- A level whose children are done may be visited in any order. -/
theorem Visits.level_append {f : Forest} {done level order : List Hyperedge}
    (hnodup : (done ++ level).Nodup) (hchildren : ∀ n ∈ level, ∀ c ∈ f.children n, c ∈ done)
    (h : f.Visits (done ++ level) order) : f.Visits done (level ++ order) := by
  induction level generalizing done with
  | nil => simpa using h
  | cons n level ih =>
      have hassoc : done ++ n :: level = done ++ [n] ++ level := by simp
      rw [hassoc] at hnodup h
      refine ⟨?_, hchildren n (by simp), ih hnodup (fun m hm c hc => ?_) h⟩
      · have hleft := (List.nodup_append.mp (List.nodup_append.mp hnodup).1).2.2
        exact fun hn => hleft n hn n (by simp) rfl
      · exact List.mem_append_left _ (hchildren m (by simp [hm]) c hc)

theorem Visits.of_append {f : Forest} {done order order' : List Hyperedge}
    (h : f.Visits done (order ++ order')) : f.Visits done order ∧ f.Visits (done ++ order) order' := by
  induction order generalizing done with
  | nil => exact ⟨trivial, by simpa using h⟩
  | cons n order ih =>
      obtain ⟨hnew, hchildren, hrest⟩ := h
      obtain ⟨horder, horder'⟩ := ih hrest
      exact ⟨⟨hnew, hchildren, horder⟩, by simpa using horder'⟩

theorem Visits.nodup_append {f : Forest} {done order : List Hyperedge} (hdone : done.Nodup)
    (h : f.Visits done order) : (done ++ order).Nodup := by
  induction order generalizing done with
  | nil => rwa [List.append_nil]
  | cons n order ih =>
      obtain ⟨hnew, -, hrest⟩ := h
      have hdone' : (done ++ [n]).Nodup := by
        rw [← List.concat_eq_append]
        exact hdone.concat hnew
      simpa using ih hdone' hrest

/-- A state that steps keep in order along a walk, each step being given that the
children of its node were visited, and the node was not. -/
theorem Visits.foldlM {f : Forest} {ε σ : Type} {step : σ → Hyperedge → Except ε σ}
    {I : List Hyperedge → σ → Prop} {done order : List Hyperedge} (h : f.Visits done order)
    (hstep : ∀ done s n, I done s → n ∈ order → n ∉ done → (∀ c ∈ f.children n, c ∈ done) →
      ∃ s', step s n = .ok s' ∧ I (done ++ [n]) s')
    {s : σ} (hs : I done s) : ∃ s', order.foldlM step s = .ok s' ∧ I (done ++ order) s' := by
  induction order generalizing done s with
  | nil => exact ⟨s, rfl, by simpa using hs⟩
  | cons n order ih =>
      obtain ⟨hnew, hchildren, hrest⟩ := h
      obtain ⟨s', hrun, hs'⟩ := hstep done s n hs (by simp) hnew hchildren
      obtain ⟨s'', hrun', hs''⟩ :=
        ih hrest (fun done s m hs hm => hstep done s m hs (List.mem_cons_of_mem n hm)) hs'
      refine ⟨s'', ?_, by simpa using hs''⟩
      rw [List.foldlM_cons, hrun]
      exact hrun'

namespace Spans

variable {f : Forest} {g : Hypergraph}

theorem mem_of_mem_children (h : f.Spans g) {c p : Hyperedge} (hp : p ∈ g)
    (hc : c ∈ f.children p) : c ∈ g :=
  (h.mem_of_link ((h.mem_children_iff hp).mp hc)).1

theorem isDone_iff (h : f.Spans g) {done : List Hyperedge} (hdone : ∀ m ∈ done, m ∈ g)
    {n : Hyperedge} (hn : n ∈ g) : isDone done n = true ↔ n ∈ done := by
  rw [isDone, List.any_eq_true]
  constructor
  · rintro ⟨m, hm, heq⟩
    rwa [← h.distinct.eq_of_vertices_eq (hdone m hm) hn (by simpa using heq)]
  · intro hn
    exact ⟨n, hn, by simp⟩

theorem readyParent?_eq_some_iff (h : f.Spans g) {done : List Hyperedge}
    (hdone : ∀ m ∈ done, m ∈ g) {n p : Hyperedge} (hn : n ∈ g) :
    f.readyParent? done n = some p ↔ f.Link n p ∧ ∀ c ∈ f.children p, c ∈ done := by
  rw [readyParent?, Option.filter_eq_some_iff, h.parent?_eq_some_iff hn]
  apply and_congr_right
  intro hlink
  have hp := (h.mem_of_link hlink).2
  rw [List.all_eq_true]
  apply forall₂_congr
  intro c hc
  exact h.isDone_iff hdone (h.mem_of_mem_children hp hc)

/-! ### One level -/

/-- A parent enters the next level if its last child is visited in this one. -/
theorem visitLevel_spec (h : f.Spans g) {done next level : List Hyperedge}
    (hdone : ∀ m ∈ done ++ level, m ∈ g) (hnext : ∀ m ∈ next, m ∈ g) :
    (f.visitLevel done next level).1 = done ++ level ∧
      ∀ m, m ∈ (f.visitLevel done next level).2 ↔
        m ∈ next ∨ (∃ n ∈ level, f.Link n m) ∧ ∀ c ∈ f.children m, c ∈ done ++ level := by
  induction level generalizing done next with
  | nil => simp [visitLevel]
  | cons n level ih =>
      have hassoc : done ++ n :: level = done ++ [n] ++ level := by simp
      have hn : n ∈ g := hdone n (by simp)
      rw [hassoc] at hdone ⊢
      have hready : ∀ p, f.readyParent? (done ++ [n]) n = some p ↔
          f.Link n p ∧ ∀ c ∈ f.children p, c ∈ done ++ [n] := fun p =>
        h.readyParent?_eq_some_iff (fun m hm => hdone m (List.mem_append_left _ hm)) hn
      have hparents : ∀ p ∈ (f.readyParent? (done ++ [n]) n).toList, p ∈ g := by
        intro p hp
        exact (h.mem_of_link ((hready p).mp (Option.mem_toList.mp hp)).1).2
      have hadded : ∀ m, m ∈ (f.readyParent? (done ++ [n]) n).toList.foldl addNode next ↔
          m ∈ next ∨ f.Link n m ∧ ∀ c ∈ f.children m, c ∈ done ++ [n] := by
        intro m
        rw [mem_foldl_addNode h.distinct hparents hnext, Option.mem_toList]
        exact or_congr_right (hready m)
      have hadded_mem : ∀ m ∈ (f.readyParent? (done ++ [n]) n).toList.foldl addNode next,
          m ∈ g := by
        intro m hm
        rcases (hadded m).mp hm with hm | ⟨hlink, -⟩
        · exact hnext m hm
        · exact (h.mem_of_link hlink).2
      obtain ⟨hfst, hsnd⟩ := ih hdone hadded_mem
      rw [visitLevel]
      refine ⟨hfst, fun m => ?_⟩
      rw [hsnd, hadded]
      constructor
      · rintro ((hm | ⟨hlink, hc⟩) | ⟨⟨k, hk, hlink⟩, hc⟩)
        · exact Or.inl hm
        · exact Or.inr ⟨⟨n, by simp, hlink⟩, fun c hcm => List.mem_append_left _ (hc c hcm)⟩
        · exact Or.inr ⟨⟨k, by simp [hk], hlink⟩, hc⟩
      · rintro (hm | ⟨⟨k, hk, hlink⟩, hc⟩)
        · exact Or.inl (Or.inl hm)
        · by_cases hlater : ∃ k ∈ level, f.Link k m
          · exact Or.inr ⟨hlater, hc⟩
          · -- no child of `m` comes later in this level, so `n` was its last
            have hkn : k = n := by
              rcases List.mem_cons.mp hk with rfl | hk
              · rfl
              · exact absurd ⟨k, hk, hlink⟩ hlater
            refine Or.inl (Or.inr ⟨hkn ▸ hlink, fun c hcm => ?_⟩)
            rcases List.mem_append.mp (hc c hcm) with hcd | hcl
            · exact hcd
            · have hm := (h.mem_of_link hlink).2
              exact absurd ⟨c, hcl, (h.mem_children_iff hm).mp hcm⟩ hlater

theorem nodup_visitLevel {done next level : List Hyperedge} (h : next.Nodup) :
    (f.visitLevel done next level).2.Nodup := by
  induction level generalizing done next with
  | nil => exact h
  | cons n level ih => exact ih (nodup_foldl_addNode h)

/-! ### All levels -/

/-- Between two levels: what is done is closed under children, and the level has
the further nodes whose children are done. -/
structure Frontier (f : Forest) (g : Hypergraph) (done level : List Hyperedge) : Prop where
  mem : ∀ n ∈ done ++ level, n ∈ g
  nodup : (done ++ level).Nodup
  closed : ∀ n ∈ done ++ level, ∀ c ∈ f.children n, c ∈ done
  complete : ∀ n ∈ g, n ∉ done → (∀ c ∈ f.children n, c ∈ done) → n ∈ level

/-- The parents whose last child is in a level are the frontier after it. -/
theorem Frontier.step (h : f.Spans g) {done level next : List Hyperedge}
    (hfrontier : Frontier f g done level) (hnodup : next.Nodup)
    (hnext : ∀ m, m ∈ next ↔
      (∃ n ∈ level, f.Link n m) ∧ ∀ c ∈ f.children m, c ∈ done ++ level) :
    Frontier f g (done ++ level) next := by
  have hmem : ∀ n ∈ next, n ∈ g := by
    intro n hn
    obtain ⟨⟨c, -, hlink⟩, -⟩ := (hnext n).mp hn
    exact (h.mem_of_link hlink).2
  constructor
  · intro n hn
    rcases List.mem_append.mp hn with hn | hn
    · exact hfrontier.mem n hn
    · exact hmem n hn
  · rw [List.nodup_append]
    refine ⟨hfrontier.nodup, hnodup, ?_⟩
    intro n hn m hm heq
    -- a node of the next level has a child in this one, so it is not done
    obtain ⟨⟨c, hc, hlink⟩, -⟩ := (hnext m).mp hm
    rw [heq] at hn
    have hcdone := hfrontier.closed m hn c ((h.mem_children_iff (hmem m hm)).mpr hlink)
    exact (List.nodup_append.mp hfrontier.nodup).2.2 c hcdone c hc rfl
  · intro n hn c hc
    rcases List.mem_append.mp hn with hn | hn
    · exact List.mem_append_left _ (hfrontier.closed n hn c hc)
    · exact ((hnext n).mp hn).2 c hc
  · intro n hn hnew hchildren
    by_cases hdone : ∀ c ∈ f.children n, c ∈ done
    · have hlevel := hfrontier.complete n hn (fun hd => hnew (List.mem_append_left _ hd)) hdone
      exact absurd (List.mem_append_right _ hlevel) hnew
    · push Not at hdone
      obtain ⟨c, hc, hcdone⟩ := hdone
      refine (hnext n).mpr ⟨⟨c, ?_, (h.mem_children_iff hn).mp hc⟩, hchildren⟩
      exact (List.mem_append.mp (hchildren c hc)).resolve_left hcdone

theorem frontier_visitLevel (h : f.Spans g) {done level : List Hyperedge}
    (hfrontier : Frontier f g done level) :
    Frontier f g (done ++ level) (f.visitLevel done [] level).2 := by
  obtain ⟨-, hnext⟩ := h.visitLevel_spec hfrontier.mem (List.forall_mem_nil _)
  simp only [List.not_mem_nil, false_or] at hnext
  exact hfrontier.step h (nodup_visitLevel List.nodup_nil) hnext

/-- When a level is empty, all nodes are done. -/
theorem mem_done_of_level_eq_nil (h : f.Spans g) {done : List Hyperedge}
    (hfrontier : Frontier f g done []) {n : Hyperedge} (hn : n ∈ g) : n ∈ done := by
  refine h.induction_up (P := fun n => n ∈ done) (fun n hn hchildren => ?_) hn
  by_contra hnew
  have hlevel := hfrontier.complete n hn hnew hchildren
  cases hlevel

/-- A walk from below goes on until all nodes are done. -/
theorem visits_bottomUpFrom (h : f.Spans g) {fuel : Nat} {done level : List Hyperedge}
    (hfrontier : Frontier f g done level) (hfuel : List.length g ≤ done.length + fuel) :
    f.Visits done (f.bottomUpFrom fuel level done) ∧
      ∀ n, n ∈ done ++ f.bottomUpFrom fuel level done ↔ n ∈ g := by
  induction fuel generalizing done level with
  | zero =>
      have hnodup := (List.nodup_append.mp hfrontier.nodup).1
      have hsub : ∀ n ∈ done, n ∈ g := fun n hn => hfrontier.mem n (List.mem_append_left _ hn)
      have hperm : done.Perm g := (List.subperm_of_subset hnodup hsub).perm_of_length_le hfuel
      refine ⟨trivial, fun n => ?_⟩
      rw [bottomUpFrom, List.append_nil, hperm.mem_iff]
  | succ fuel ih =>
      rw [bottomUpFrom]
      split_ifs with hempty
      · rw [List.isEmpty_iff] at hempty
        subst hempty
        refine ⟨trivial, fun n => ?_⟩
        constructor
        · exact hfrontier.mem n
        · intro hn
          exact List.mem_append_left _ (h.mem_done_of_level_eq_nil hfrontier hn)
      · obtain ⟨hfst, -⟩ := h.visitLevel_spec hfrontier.mem (List.forall_mem_nil _)
        have hlevel : level.length ≠ 0 := by simpa using hempty
        have hbound : List.length g ≤ (done ++ level).length + fuel := by
          rw [List.length_append]
          omega
        obtain ⟨hvisits, hall⟩ := ih (h.frontier_visitLevel hfrontier) hbound
        change f.Visits done (level ++ f.bottomUpFrom fuel _ (f.visitLevel done [] level).1) ∧
          ∀ n, n ∈ done ++ (level ++ f.bottomUpFrom fuel _ (f.visitLevel done [] level).1) ↔ n ∈ g
        rw [hfst]
        refine ⟨Visits.level_append hfrontier.nodup (fun n hn => ?_) hvisits, fun n => ?_⟩
        · exact hfrontier.closed n (List.mem_append_right _ hn)
        · rw [← List.append_assoc]
          exact hall n

/-! ### The walks of an evaluation -/

theorem mem_leaves_iff (h : f.Spans g) {n : Hyperedge} :
    n ∈ f.leaves ↔ n ∈ g ∧ f.children n = [] := by
  rw [leaves, List.mem_filter, h.mem_nodes_iff, List.isEmpty_iff]

theorem nodup_leaves (h : f.Spans g) : f.leaves.Nodup := h.nodup_nodes.filter _

/-- At first, the leaves are the nodes whose children are done. -/
theorem frontier_leaves (h : f.Spans g) : Frontier f g [] f.leaves := by
  constructor
  · intro n hn
    exact (h.mem_leaves_iff.mp hn).1
  · exact h.nodup_leaves
  · intro n hn c hc
    rw [(h.mem_leaves_iff.mp hn).2] at hc
    exact hc
  · intro n hn _ hchildren
    refine h.mem_leaves_iff.mpr ⟨hn, List.eq_nil_iff_forall_not_mem.mpr ?_⟩
    intro c hc
    exact List.not_mem_nil (hchildren c hc)

/-- The walk from below visits all nodes, each after its children. -/
theorem visits_bottomUp (h : f.Spans g) :
    f.Visits [] f.bottomUp ∧ ∀ n, n ∈ f.bottomUp ↔ n ∈ g :=
  h.visits_bottomUpFrom h.frontier_leaves (by rw [h.perm_nodes.length_eq]; simp)

theorem mem_readyParents_iff (h : f.Spans g) {p : Hyperedge} :
    p ∈ f.leaves.filterMap (f.readyParent? f.leaves) ↔
      (∃ n ∈ f.leaves, f.Link n p) ∧ ∀ c ∈ f.children p, c ∈ f.leaves := by
  have hleaves : ∀ n ∈ f.leaves, n ∈ g := fun n hn => (h.mem_leaves_iff.mp hn).1
  rw [List.mem_filterMap]
  constructor
  · rintro ⟨n, hn, hp⟩
    obtain ⟨hlink, hc⟩ := (h.readyParent?_eq_some_iff hleaves (hleaves n hn)).mp hp
    exact ⟨⟨n, hn, hlink⟩, hc⟩
  · rintro ⟨⟨n, hn, hlink⟩, hc⟩
    exact ⟨n, hn, (h.readyParent?_eq_some_iff hleaves (hleaves n hn)).mpr ⟨hlink, hc⟩⟩

/-- The parents that have leaves only for children are the frontier after the leaves. -/
theorem frontier_readyParents (h : f.Spans g) :
    Frontier f g f.leaves ((f.leaves.filterMap (f.readyParent? f.leaves)).foldl addNode []) := by
  have hmem : ∀ p ∈ f.leaves.filterMap (f.readyParent? f.leaves), p ∈ g := by
    intro p hp
    obtain ⟨⟨n, -, hlink⟩, -⟩ := h.mem_readyParents_iff.mp hp
    exact (h.mem_of_link hlink).2
  have hstart : ∀ p, p ∈ (f.leaves.filterMap (f.readyParent? f.leaves)).foldl addNode [] ↔
      (∃ n ∈ f.leaves, f.Link n p) ∧ ∀ c ∈ f.children p, c ∈ f.leaves := by
    intro p
    rw [mem_foldl_addNode h.distinct hmem (by simp), h.mem_readyParents_iff]
    simp
  exact h.frontier_leaves.step h (nodup_foldl_addNode List.nodup_nil) hstart

/-- The walk through the inner nodes visits those with children, each after its
children, the leaves being done. -/
theorem visits_innerBottomUp (h : f.Spans g) :
    f.Visits f.leaves f.innerBottomUp ∧ ∀ n, n ∈ f.leaves ++ f.innerBottomUp ↔ n ∈ g :=
  h.visits_bottomUpFrom h.frontier_readyParents (by rw [h.perm_nodes.length_eq]; omega)

end Spans

end Forest

end Conjunctive
