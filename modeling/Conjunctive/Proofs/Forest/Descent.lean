import Conjunctive.Forest.Walk
import Conjunctive.Proofs.Forest.Links

/-!
# The order of the walk from above

`f.Descends done order` says that an order of links goes on from some nodes
that are done, each link leading from a node that is done to one that is not,
which is done from then on. The walk from above is such an order from the roots
and leads to every node. Between two levels the nodes above the level have all
their children above it or in it, and the parents of all these nodes are above
it (`Canopy`); so each level is new, and the bound on the number of levels is
never felt.
-/

namespace Conjunctive

open Conjunctive.Hypergraph

namespace Forest

/-- The links of an order lead from nodes that are done to new ones. -/
def Descends (f : Forest) : List Hyperedge → List (Hyperedge × Hyperedge) → Prop
  | _, [] => True
  | done, l :: order =>
    f.Link l.2 l.1 ∧ l.1 ∈ done ∧ l.2 ∉ done ∧ f.Descends (done ++ [l.2]) order

/-- Links from nodes that are done to different new ones may be taken in any order. -/
theorem Descends.links_append {f : Forest} {done : List Hyperedge}
    {links order : List (Hyperedge × Hyperedge)} (hlinks : ∀ l ∈ links, f.Link l.2 l.1 ∧ l.1 ∈ done)
    (hnodup : (done ++ links.map Prod.snd).Nodup)
    (h : f.Descends (done ++ links.map Prod.snd) order) : f.Descends done (links ++ order) := by
  induction links generalizing done with
  | nil => simpa using h
  | cons l links ih =>
      have hassoc : done ++ (l :: links).map Prod.snd = done ++ [l.2] ++ links.map Prod.snd := by
        simp
      rw [hassoc] at hnodup h
      obtain ⟨hlink, hdone⟩ := hlinks l (by simp)
      refine ⟨hlink, hdone, ?_, ih (fun k hk => ?_) hnodup h⟩
      · have hleft := (List.nodup_append.mp (List.nodup_append.mp hnodup).1).2.2
        exact fun hl => hleft _ hl l.2 (by simp) rfl
      · obtain ⟨hlink, hdone⟩ := hlinks k (by simp [hk])
        exact ⟨hlink, List.mem_append_left _ hdone⟩

theorem Descends.of_append {f : Forest} {done : List Hyperedge}
    {order order' : List (Hyperedge × Hyperedge)} (h : f.Descends done (order ++ order')) :
    f.Descends done order ∧ f.Descends (done ++ order.map Prod.snd) order' := by
  induction order generalizing done with
  | nil => exact ⟨trivial, by simpa using h⟩
  | cons l order ih =>
      obtain ⟨hlink, hdone, hnew, hrest⟩ := h
      obtain ⟨horder, horder'⟩ := ih hrest
      exact ⟨⟨hlink, hdone, hnew, horder⟩, by simpa using horder'⟩

theorem Descends.nodup_append {f : Forest} {done : List Hyperedge}
    {order : List (Hyperedge × Hyperedge)} (hdone : done.Nodup) (h : f.Descends done order) :
    (done ++ order.map Prod.snd).Nodup := by
  induction order generalizing done with
  | nil => simpa using hdone
  | cons l order ih =>
      obtain ⟨-, -, hnew, hrest⟩ := h
      have hdone' : (done ++ [l.2]).Nodup := by
        rw [← List.concat_eq_append]
        exact hdone.concat hnew
      simpa using ih hdone' hrest

/-- A state that steps keep in order along a walk from above, each step being given
that the upper end of its link was done, and the lower end was not. -/
theorem Descends.foldlM {f : Forest} {ε σ : Type} {step : σ → Hyperedge × Hyperedge → Except ε σ}
    {I : List Hyperedge → σ → Prop} {done : List Hyperedge} {order : List (Hyperedge × Hyperedge)}
    (h : f.Descends done order)
    (hstep : ∀ done s l, I done s → f.Link l.2 l.1 → l.1 ∈ done → l.2 ∉ done →
      ∃ s', step s l = .ok s' ∧ I (done ++ [l.2]) s')
    {s : σ} (hs : I done s) :
    ∃ s', order.foldlM step s = .ok s' ∧ I (done ++ order.map Prod.snd) s' := by
  induction order generalizing done s with
  | nil => exact ⟨s, rfl, by simpa using hs⟩
  | cons l order ih =>
      obtain ⟨hlink, hdone, hnew, hrest⟩ := h
      obtain ⟨s', hrun, hs'⟩ := hstep done s l hs hlink hdone hnew
      obtain ⟨s'', hrun', hs''⟩ := ih hrest hs'
      refine ⟨s'', ?_, by simpa using hs''⟩
      rw [List.foldlM_cons, hrun]
      exact hrun'

namespace Spans

variable {f : Forest} {g : Hypergraph}

/-- Between two levels: the roots and the children of what is above were reached,
and the parents of what was reached are above. -/
structure Canopy (f : Forest) (g : Hypergraph) (above level : List Hyperedge) : Prop where
  mem : ∀ n ∈ above ++ level, n ∈ g
  nodup : (above ++ level).Nodup
  roots : ∀ n ∈ f.roots, n ∈ above ++ level
  children : ∀ n ∈ above, ∀ c ∈ f.children n, c ∈ above ++ level
  parents : ∀ n ∈ above ++ level, ∀ p, f.Link n p → p ∈ above

theorem canopy_roots (h : f.Spans g) : Canopy f g [] f.roots where
  mem := fun _ hn => (h.mem_roots_iff.mp hn).1
  nodup := h.nodup_nodes.filter _
  roots := fun _ hn => hn
  children := List.forall_mem_nil _
  parents := fun _ hn p hlink => absurd hlink ((h.mem_roots_iff.mp hn).2 p)

/-- The children of a level are the level after it. -/
theorem Canopy.step (h : f.Spans g) {above level : List Hyperedge} (hc : Canopy f g above level) :
    Canopy f g (above ++ level) (level.flatMap f.children) := by
  have hlevel : ∀ n ∈ level, n ∈ g := fun n hn => hc.mem n (List.mem_append_right _ hn)
  have hlink : ∀ c ∈ level.flatMap f.children, ∃ p ∈ level, f.Link c p := by
    intro c hcl
    obtain ⟨p, hp, hcp⟩ := List.mem_flatMap.mp hcl
    exact ⟨p, hp, (h.mem_children_iff (hlevel p hp)).mp hcp⟩
  constructor
  · intro n hn
    rcases List.mem_append.mp hn with hn | hn
    · exact hc.mem n hn
    · obtain ⟨p, -, hnp⟩ := hlink n hn
      exact (h.mem_of_link hnp).1
  · have hleveldup := (List.nodup_append.mp hc.nodup).2.1
    rw [List.nodup_append]
    refine ⟨hc.nodup, h.nodup_flatMap_children hleveldup hlevel, ?_⟩
    intro n hn c hcl heq
    -- the parent of a node that was reached is above, not in the level
    obtain ⟨p, hp, hcp⟩ := hlink c hcl
    have habove := hc.parents n hn p (heq ▸ hcp)
    exact (List.nodup_append.mp hc.nodup).2.2 p habove p hp rfl
  · intro n hn
    exact List.mem_append_left _ (hc.roots n hn)
  · intro n hn c hcn
    rcases List.mem_append.mp hn with hn | hn
    · exact List.mem_append_left _ (hc.children n hn c hcn)
    · exact List.mem_append_right _ (List.mem_flatMap.mpr ⟨n, hn, hcn⟩)
  · intro n hn p hnp
    rcases List.mem_append.mp hn with hn | hn
    · exact List.mem_append_left _ (hc.parents n hn p hnp)
    · obtain ⟨p', hp', hnp'⟩ := hlink n hn
      exact List.mem_append_right _ (h.link_unique hnp' hnp ▸ hp')

/-- When a level is empty, all nodes are above it. -/
theorem Canopy.mem_above (h : f.Spans g) {above : List Hyperedge} (hc : Canopy f g above [])
    {n : Hyperedge} (hn : n ∈ g) : n ∈ above := by
  refine h.induction_down (P := fun n => n ∈ above) (fun n hn hparents => ?_) hn
  by_cases hlink : ∃ p, f.Link n p
  · obtain ⟨p, hlink⟩ := hlink
    have hchild := (h.mem_children_iff (h.mem_of_link hlink).2).mpr hlink
    simpa using hc.children p (hparents p hlink) n hchild
  · push Not at hlink
    simpa using hc.roots n (h.mem_roots_iff.mpr ⟨hn, hlink⟩)

/-- A walk from above goes on until all nodes are reached. -/
theorem descends_topDownFrom (h : f.Spans g) {fuel : Nat} {above level : List Hyperedge}
    (hc : Canopy f g above level) (hfuel : List.length g ≤ above.length + fuel) :
    f.Descends (above ++ level) (f.topDownFrom fuel level) ∧
      ∀ n, n ∈ above ++ level ++ (f.topDownFrom fuel level).map Prod.snd ↔ n ∈ g := by
  induction fuel generalizing above level with
  | zero =>
      have hnodup := (List.nodup_append.mp hc.nodup).1
      have hsub : ∀ n ∈ above, n ∈ g := fun n hn => hc.mem n (List.mem_append_left _ hn)
      have hperm : above.Perm g := (List.subperm_of_subset hnodup hsub).perm_of_length_le hfuel
      refine ⟨trivial, fun n => ?_⟩
      rw [topDownFrom, List.map_nil, List.append_nil]
      exact ⟨hc.mem n, fun hn => List.mem_append_left _ (hperm.mem_iff.mpr hn)⟩
  | succ fuel ih =>
      rw [topDownFrom]
      split_ifs with hempty
      · rw [List.isEmpty_iff] at hempty
        subst hempty
        refine ⟨trivial, fun n => ?_⟩
        rw [List.map_nil, List.append_nil]
        exact ⟨hc.mem n, fun hn => List.mem_append_left _ (hc.mem_above h hn)⟩
      · have hsnd : (level.flatMap fun n => (f.children n).map fun c => (n, c)).map Prod.snd =
            level.flatMap f.children := by
          rw [List.map_flatMap]
          apply List.flatMap_congr
          intro n _
          rw [List.map_map]
          exact List.map_id _
        have hlinks : ∀ l ∈ level.flatMap (fun n => (f.children n).map fun c => (n, c)),
            f.Link l.2 l.1 ∧ l.1 ∈ above ++ level := by
          intro l hl
          obtain ⟨n, hn, hl⟩ := List.mem_flatMap.mp hl
          obtain ⟨c, hcn, rfl⟩ := List.mem_map.mp hl
          have hmem : n ∈ above ++ level := List.mem_append_right _ hn
          exact ⟨(h.mem_children_iff (hc.mem n hmem)).mp hcn, hmem⟩
        have hlevel : level.length ≠ 0 := by simpa using hempty
        have hbound : List.length g ≤ (above ++ level).length + fuel := by
          rw [List.length_append]
          omega
        obtain ⟨hdescends, hall⟩ := ih (hc.step h) hbound
        rw [← hsnd] at hdescends hall
        refine ⟨Descends.links_append hlinks ?_ hdescends, fun n => ?_⟩
        · rw [hsnd]
          exact (hc.step h).nodup
        · rw [← hall n, List.map_append, ← List.append_assoc]

/-- The walk from above leads from the roots to every node. -/
theorem descends_topDown (h : f.Spans g) :
    f.Descends f.roots f.topDown ∧ ∀ n, n ∈ f.roots ++ f.topDown.map Prod.snd ↔ n ∈ g :=
  h.descends_topDownFrom h.canopy_roots (by rw [h.perm_nodes.length_eq]; simp)

end Spans

end Forest

end Conjunctive
