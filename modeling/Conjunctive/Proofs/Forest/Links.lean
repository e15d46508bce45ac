import Conjunctive.Forest.Basic
import Conjunctive.Proofs.Hypergraph.Elimination
import Mathlib.Logic.Relation

/-!
# The links of a join forest

A forest is given by the removals that built it. `Forest.Spans f g` says that
they are a run from the hyperedges `g` to nothing; from this alone follows what
the nodes, parents, children and roots of the forest are. A link leads from an
ear to its witness, which is removed later, so that links lead upward in the
order of removal.
-/

namespace Conjunctive

namespace Hypergraph

/-- The ears of a run that leaves nothing are the hyperedges it starts from. -/
theorem Eliminates.perm_ears {rs : List Removal} {g : Hypergraph} (hg : g.Distinct)
    (h : Eliminates rs g []) : List.Perm (rs.map Removal.ear) g := by
  induction rs generalizing g with
  | nil =>
      cases h
      exact List.Perm.refl _
  | cons r rs ih =>
      rw [List.map_cons]
      have hrest := ih (hg.sublist (others_sublist r.ear g)) h.2.2
      exact (hrest.cons r.ear).trans (hg.perm_others h.1).symm

theorem Eliminates.mem_of_witness {rs : List Removal} {g left : Hypergraph}
    (h : Eliminates rs g left) {c p : Hyperedge} (hr : ⟨c, some p⟩ ∈ rs) : c ∈ g ∧ p ∈ g := by
  induction rs generalizing g with
  | nil => cases hr
  | cons r rs ih =>
      rcases List.mem_cons.mp hr with rfl | hr
      · exact ⟨h.1, (mem_others.mp h.2.1.1).1⟩
      · have hrest := ih h.2.2 hr
        exact ⟨(mem_others.mp hrest.1).1, (mem_others.mp hrest.2).1⟩

/-- The two parts of a run. -/
theorem Eliminates.of_append {rs ss : List Removal} {g left : Hypergraph}
    (h : Eliminates (rs ++ ss) g left) : ∃ h, Eliminates rs g h ∧ Eliminates ss h left := by
  induction rs generalizing g with
  | nil => exact ⟨g, rfl, h⟩
  | cons r rs ih =>
      obtain ⟨h', hrs, hss⟩ := ih h.2.2
      exact ⟨h', ⟨h.1, h.2.1, hrs⟩, hss⟩

/-- What is left has not been removed. -/
theorem Eliminates.ear_ne {rs : List Removal} {g left : Hypergraph} (h : Eliminates rs g left)
    {r : Removal} (hr : r ∈ rs) {e : Hyperedge} (he : e ∈ left) :
    r.ear.vertices ≠ e.vertices := by
  induction rs generalizing g with
  | nil => cases hr
  | cons s rs ih =>
      rcases List.mem_cons.mp hr with rfl | hr
      · exact (mem_others.mp (h.2.2.sublist.subset he)).2.symm
      · exact ih h.2.2 hr

theorem Eliminates.mem_of_ear {rs : List Removal} {g left : Hypergraph}
    (h : Eliminates rs g left) {r : Removal} (hr : r ∈ rs) : r.ear ∈ g := by
  induction rs generalizing g with
  | nil => cases hr
  | cons s rs ih =>
      rcases List.mem_cons.mp hr with rfl | hr
      · exact h.1
      · exact (others_sublist s.ear g).subset (ih h.2.2 hr)

/-- The hyperedges that a run names. -/
theorem Eliminates.mem_of_mem_flatMap {rs : List Removal} {g left : Hypergraph}
    (h : Eliminates rs g left) {e : Hyperedge}
    (he : e ∈ rs.flatMap fun r => r.ear :: r.witness.toList) : e ∈ g := by
  obtain ⟨⟨c, w⟩, hr, hmem⟩ := List.mem_flatMap.mp he
  rcases List.mem_cons.mp hmem with rfl | hw
  · exact h.mem_of_ear hr
  · obtain rfl : w = some e := Option.mem_toList.mp hw
    exact (h.mem_of_witness hr).2

/-- No two removals of a run have the same ear. -/
theorem Eliminates.eq_of_ear_eq {rs : List Removal} {g : Hypergraph} (hg : g.Distinct)
    (h : Eliminates rs g []) {r s : Removal} (hr : r ∈ rs) (hs : s ∈ rs)
    (heq : r.ear.vertices = s.ear.vertices) : r = s := by
  have hperm := h.perm_ears hg
  have hnodup : (rs.map Removal.ear).Nodup := hperm.nodup_iff.mpr hg.nodup
  refine List.inj_on_of_nodup_map hnodup hr hs ?_
  exact hg.eq_of_vertices_eq (hperm.mem_iff.mp (List.mem_map_of_mem hr))
    (hperm.mem_iff.mp (List.mem_map_of_mem hs)) heq

end Hypergraph

open Conjunctive.Hypergraph

namespace Forest

/-- A forest spans the hyperedges that its removals use up. -/
structure Spans (f : Forest) (g : Hypergraph) : Prop where
  distinct : g.Distinct
  eliminates : Eliminates f.removals g []

theorem spans_of_forest? {g : Hypergraph} (hg : g.Distinct) {f : Forest}
    (h : g.forest? = some f) : f.Spans g := by
  dsimp only [forest?] at h
  split_ifs at h with hleft
  cases h
  refine ⟨hg, ?_⟩
  have hrun := eliminates_eliminate hg
  rwa [List.isEmpty_iff.mp hleft] at hrun

/-- The link from a node to its parent. -/
def Link (f : Forest) (c p : Hyperedge) : Prop := ⟨c, some p⟩ ∈ f.removals

/-- The place of a node in the order of removal. -/
def rank (f : Forest) (n : Hyperedge) : Nat :=
  (f.removals.map fun r => r.ear.vertices).idxOf n.vertices

/-! ### Lists of nodes -/

theorem addNode_of_mem {nodes : List Hyperedge} {e : Hyperedge} (he : e ∈ nodes) :
    addNode nodes e = nodes :=
  if_pos (List.any_eq_true.mpr ⟨e, he, beq_self_eq_true e.vertices⟩)

theorem addNode_of_notMem {g : Hypergraph} (hg : g.Distinct) {nodes : List Hyperedge}
    (hsub : ∀ n ∈ nodes, n ∈ g) {e : Hyperedge} (he : e ∈ g) (hnot : e ∉ nodes) :
    addNode nodes e = nodes ++ [e] := by
  refine if_neg fun hany => ?_
  obtain ⟨n, hn, heq⟩ := List.any_eq_true.mp hany
  exact hnot (hg.eq_of_vertices_eq (hsub n hn) he (beq_iff_eq.mp heq) ▸ hn)

theorem mem_addNode {g : Hypergraph} (hg : g.Distinct) {nodes : List Hyperedge}
    (hsub : ∀ n ∈ nodes, n ∈ g) {e : Hyperedge} (he : e ∈ g) {m : Hyperedge} :
    m ∈ addNode nodes e ↔ m ∈ nodes ∨ m = e := by
  by_cases hmem : e ∈ nodes
  · rw [addNode_of_mem hmem, or_iff_left_of_imp]
    rintro rfl
    exact hmem
  · rw [addNode_of_notMem hg hsub he hmem, List.mem_append, List.mem_singleton]

theorem nodup_addNode {nodes : List Hyperedge} (h : nodes.Nodup) (e : Hyperedge) :
    (addNode nodes e).Nodup := by
  unfold addNode
  split_ifs with hany
  · exact h
  · simp only [List.any_eq_true, beq_iff_eq, not_exists, not_and] at hany
    rw [List.nodup_append]
    refine ⟨h, List.nodup_singleton e, ?_⟩
    intro n hn m hm heq
    rw [List.mem_singleton] at hm
    exact hany n hn (by rw [heq, hm])

theorem mem_foldl_addNode {g : Hypergraph} (hg : g.Distinct) {es nodes : List Hyperedge}
    (hes : ∀ e ∈ es, e ∈ g) (hsub : ∀ n ∈ nodes, n ∈ g) {m : Hyperedge} :
    m ∈ es.foldl addNode nodes ↔ m ∈ nodes ∨ m ∈ es := by
  induction es generalizing nodes with
  | nil => simp
  | cons e es ih =>
      have he : e ∈ g := hes e (by simp)
      have hadd : ∀ n ∈ addNode nodes e, n ∈ g := by
        intro n hn
        rcases (mem_addNode hg hsub he).mp hn with hn | rfl
        · exact hsub n hn
        · exact he
      rw [List.foldl_cons, ih (fun e he => hes e (by simp [he])) hadd, mem_addNode hg hsub he,
        List.mem_cons, or_assoc]

theorem nodup_foldl_addNode {es nodes : List Hyperedge} (h : nodes.Nodup) :
    (es.foldl addNode nodes).Nodup := by
  induction es generalizing nodes with
  | nil => exact h
  | cons e es ih => exact ih (nodup_addNode h e)

/-- The nodes are what the removals name. -/
theorem mem_nodes_iff {rs : List Removal} {g left : Hypergraph} (hg : g.Distinct)
    (h : Eliminates rs g left) {n : Hyperedge} :
    n ∈ nodes ⟨rs⟩ ↔ n ∈ rs.flatMap fun r => r.ear :: r.witness.toList := by
  rw [nodes, mem_foldl_addNode hg (fun _ => h.mem_of_mem_flatMap) (List.forall_mem_nil _)]
  exact or_iff_right List.not_mem_nil

namespace Spans

variable {f : Forest} {g : Hypergraph}

theorem mem_iff_ear (h : f.Spans g) {n : Hyperedge} : n ∈ g ↔ ∃ r ∈ f.removals, r.ear = n := by
  rw [← (h.eliminates.perm_ears h.distinct).mem_iff, List.mem_map]

theorem mem_of_link (h : f.Spans g) {c p : Hyperedge} (hlink : f.Link c p) : c ∈ g ∧ p ∈ g :=
  h.eliminates.mem_of_witness hlink

theorem mem_nodes_iff (h : f.Spans g) {n : Hyperedge} : n ∈ f.nodes ↔ n ∈ g := by
  rw [Forest.mem_nodes_iff h.distinct h.eliminates]
  refine ⟨h.eliminates.mem_of_mem_flatMap, fun hn => ?_⟩
  obtain ⟨r, hr, rfl⟩ := h.mem_iff_ear.mp hn
  exact List.mem_flatMap.mpr ⟨r, hr, by simp⟩

theorem nodup_nodes (_ : f.Spans g) : f.nodes.Nodup := nodup_foldl_addNode List.nodup_nil

/-- The nodes of the forest are the hyperedges that it spans. -/
theorem perm_nodes (h : f.Spans g) : f.nodes.Perm g :=
  (List.perm_ext_iff_of_nodup h.nodup_nodes h.distinct.nodup).mpr fun _ => h.mem_nodes_iff

theorem parent?_ear (h : f.Spans g) {r : Removal} (hr : r ∈ f.removals) :
    f.parent? r.ear = r.witness := by
  unfold parent?
  cases hfind : f.removals.find? fun s => s.ear.vertices == r.ear.vertices with
  | none =>
      have := List.find?_eq_none.mp hfind r hr
      simp at this
  | some s =>
      have heq : s.ear.vertices = r.ear.vertices := by simpa using List.find?_some hfind
      rw [h.eliminates.eq_of_ear_eq h.distinct (List.mem_of_find?_eq_some hfind) hr heq]
      rfl

theorem parent?_eq_some_iff (h : f.Spans g) {c p : Hyperedge} (hc : c ∈ g) :
    f.parent? c = some p ↔ f.Link c p := by
  obtain ⟨⟨c, w⟩, hr, rfl⟩ := h.mem_iff_ear.mp hc
  rw [h.parent?_ear hr]
  constructor
  · rintro rfl
    exact hr
  · intro hlink
    have heq := h.eliminates.eq_of_ear_eq h.distinct hr hlink rfl
    exact congrArg Removal.witness heq

theorem link_unique (h : f.Spans g) {c p p' : Hyperedge} (hp : f.Link c p) (hp' : f.Link c p') :
    p = p' := by
  have heq := h.eliminates.eq_of_ear_eq h.distinct hp hp' rfl
  exact Option.some.inj (congrArg Removal.witness heq)

theorem mem_children_iff (h : f.Spans g) {c p : Hyperedge} (hp : p ∈ g) :
    c ∈ f.children p ↔ f.Link c p := by
  rw [children, List.mem_map]
  constructor
  · rintro ⟨⟨c, w⟩, hr, rfl⟩
    obtain ⟨hr, hw⟩ := List.mem_filter.mp hr
    rw [Option.any_eq_true] at hw
    obtain ⟨p', rfl, heq⟩ := hw
    have hpp' : p' = p :=
      h.distinct.eq_of_vertices_eq (h.mem_of_link hr).2 hp (by simpa using heq)
    exact hpp' ▸ hr
  · intro hlink
    exact ⟨_, List.mem_filter.mpr ⟨hlink, by simp⟩, rfl⟩

theorem nodup_children (h : f.Spans g) (n : Hyperedge) : (f.children n).Nodup := by
  have hnodup : (f.removals.map Removal.ear).Nodup :=
    (h.eliminates.perm_ears h.distinct).nodup_iff.mpr h.distinct.nodup
  exact hnodup.sublist (List.Sublist.map _ List.filter_sublist)

/-- No node is a child of two nodes. -/
theorem nodup_flatMap_children (h : f.Spans g) {ns : List Hyperedge} (hnodup : ns.Nodup)
    (hns : ∀ n ∈ ns, n ∈ g) : (ns.flatMap f.children).Nodup := by
  rw [List.nodup_flatMap]
  refine ⟨fun p _ => h.nodup_children p, ?_⟩
  refine hnodup.imp_of_mem fun {p p'} hp hp' hne c hc hc' => hne ?_
  exact h.link_unique ((h.mem_children_iff (hns p hp)).mp hc)
    ((h.mem_children_iff (hns p' hp')).mp hc')

/-! ### The order of removal -/

/-- A witness is removed after its ear. -/
theorem rank_lt (h : f.Spans g) {c p : Hyperedge} (hlink : f.Link c p) : f.rank c < f.rank p := by
  obtain ⟨rs⟩ := f
  obtain ⟨hg, hrun⟩ := h
  change Eliminates rs g [] at hrun
  change ⟨c, some p⟩ ∈ rs at hlink
  unfold rank
  induction rs generalizing g with
  | nil => cases hlink
  | cons r rs ih =>
      rw [List.map_cons]
      rcases List.mem_cons.mp hlink with rfl | hlink
      · have hne := (mem_others.mp hrun.2.1.1).2
        rw [List.idxOf_cons_self, List.idxOf_cons_ne _ hne.symm]
        exact Nat.succ_pos _
      · have hmem := hrun.2.2.mem_of_witness hlink
        rw [List.idxOf_cons_ne _ (mem_others.mp hmem.1).2.symm,
          List.idxOf_cons_ne _ (mem_others.mp hmem.2).2.symm]
        exact Nat.succ_lt_succ (ih (hg.sublist (others_sublist _ _)) hrun.2.2 hlink)

/-! ### Roots -/

theorem mem_roots_iff (h : f.Spans g) {n : Hyperedge} :
    n ∈ f.roots ↔ n ∈ g ∧ ∀ p, ¬ f.Link n p := by
  rw [roots, List.mem_filter, h.mem_nodes_iff]
  apply and_congr_right
  intro hn
  rw [Option.isNone_iff_eq_none, Option.eq_none_iff_forall_ne_some]
  exact forall_congr' fun p => not_congr (h.parent?_eq_some_iff hn)

theorem rank_lt_length (h : f.Spans g) {n : Hyperedge} (hn : n ∈ g) :
    f.rank n < f.removals.length := by
  obtain ⟨r, hr, rfl⟩ := h.mem_iff_ear.mp hn
  have hlt := List.idxOf_lt_length_of_mem (List.mem_map_of_mem (f := fun r => r.ear.vertices) hr)
  rwa [List.length_map] at hlt

/-- What holds of a node whenever it holds of its parent holds of all nodes. -/
theorem induction_down (h : f.Spans g) {P : Hyperedge → Prop}
    (hstep : ∀ n ∈ g, (∀ p, f.Link n p → P p) → P n) {n : Hyperedge} (hn : n ∈ g) : P n := by
  induction hk : f.removals.length - f.rank n using Nat.strongRecOn generalizing n with
  | _ k ih =>
      apply hstep n hn
      intro p hlink
      have hp := (h.mem_of_link hlink).2
      have hrank := h.rank_lt hlink
      have hlen := h.rank_lt_length hp
      exact ih (f.removals.length - f.rank p) (by omega) hp rfl

/-- What holds of a node whenever it holds of its children holds of all nodes. -/
theorem induction_up (h : f.Spans g) {P : Hyperedge → Prop}
    (hstep : ∀ n ∈ g, (∀ c ∈ f.children n, P c) → P n) {n : Hyperedge} (hn : n ∈ g) : P n := by
  induction hk : f.rank n using Nat.strongRecOn generalizing n with
  | _ k ih =>
      apply hstep n hn
      intro c hc
      have hlink := (h.mem_children_iff hn).mp hc
      exact ih (f.rank c) (hk ▸ h.rank_lt hlink) (h.mem_of_link hlink).1 rfl

theorem exists_root (h : f.Spans g) {n : Hyperedge} (hn : n ∈ g) :
    ∃ r ∈ f.roots, Relation.ReflTransGen f.Link n r := by
  refine h.induction_down (P := fun n => ∃ r ∈ f.roots, Relation.ReflTransGen f.Link n r)
    (fun n hn ih => ?_) hn
  by_cases hlink : ∃ p, f.Link n p
  · obtain ⟨p, hlink⟩ := hlink
    obtain ⟨r, hr, hpath⟩ := ih p hlink
    exact ⟨r, hr, hpath.head hlink⟩
  · push Not at hlink
    exact ⟨n, h.mem_roots_iff.mpr ⟨hn, hlink⟩, .refl⟩

/-- Following the links from a node leads to one root only. -/
theorem root_unique (h : f.Spans g) {n r r' : Hyperedge} (hr : r ∈ f.roots) (hr' : r' ∈ f.roots)
    (hpath : Relation.ReflTransGen f.Link n r) (hpath' : Relation.ReflTransGen f.Link n r') :
    r = r' := by
  have hroot : ∀ {s t}, s ∈ f.roots → Relation.ReflTransGen f.Link s t → t = s := by
    intro s t hs hst
    rcases hst.cases_head with heq | ⟨p, hlink, -⟩
    · exact heq.symm
    · exact absurd hlink ((h.mem_roots_iff.mp hs).2 p)
  have hunique : Relator.RightUnique f.Link := fun _ _ _ hp hp' => h.link_unique hp hp'
  rcases Relation.ReflTransGen.total_of_right_unique hunique hpath hpath' with hrr | hrr
  · exact (hroot hr hrr).symm
  · exact hroot hr' hrr

end Spans

end Forest

end Conjunctive
