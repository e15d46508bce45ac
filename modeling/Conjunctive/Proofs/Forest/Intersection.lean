import Conjunctive.Proofs.Forest.Links
import Conjunctive.Proofs.Hypergraph.JoinForest

/-!
# The running intersection property

A variable of a removed ear is one of its witness as long as a hyperedge that
is left has it. So the nodes with a variable are linked upward to the last of
them, their top (`exists_top`), through nodes that have the variable too. The
forest of an acyclic hypergraph is therefore a join forest: what two nodes
share lies on the path between them, and different trees share nothing.
-/

namespace Conjunctive

open Conjunctive.Hypergraph

/-- All hyperedges with a variable are linked to the last of them by way of
hyperedges with that variable. -/
theorem Hypergraph.Eliminates.exists_top {rs : List Removal} {g : Hypergraph} (hg : g.Distinct)
    (h : Eliminates rs g []) {x : String} (hx : ∃ e ∈ g, x ∈ e.vertices) :
    ∃ t ∈ g, x ∈ t.vertices ∧ ∀ n ∈ g, x ∈ n.vertices →
      Relation.ReflTransGen (fun c p => ⟨c, some p⟩ ∈ rs ∧ x ∈ p.vertices) n t := by
  induction rs generalizing g with
  | nil =>
      cases h
      obtain ⟨e, he, -⟩ := hx
      cases he
  | cons r rs ih =>
      obtain ⟨hear, hwitness, hrest⟩ := h
      by_cases hleft : ∃ e ∈ others r.ear g, x ∈ e.vertices
      · obtain ⟨t, ht, hxt, htop⟩ := ih (hg.sublist (others_sublist _ _)) hrest hleft
        have hlift : ∀ n ∈ others r.ear g, x ∈ n.vertices →
            Relation.ReflTransGen (fun c p => ⟨c, some p⟩ ∈ r :: rs ∧ x ∈ p.vertices) n t := by
          intro n hn hxn
          refine Relation.ReflTransGen.mono (fun c p hcp => ?_) _ _ (htop n hn hxn)
          exact ⟨List.mem_cons_of_mem r hcp.1, hcp.2⟩
        refine ⟨t, (mem_others.mp ht).1, hxt, fun n hn hxn => ?_⟩
        by_cases hnr : n = r.ear
        · obtain ⟨c, w⟩ := r
          subst hnr
          cases w with
          | none =>
              obtain ⟨e, he, hxe⟩ := hleft
              exact absurd hxe (hwitness x hxn e he)
          | some w =>
              have hxw : x ∈ w.vertices := hwitness.2 x hxn hleft
              exact (hlift w hwitness.1 hxw).head ⟨by simp, hxw⟩
        · exact hlift n ((hg.mem_others_iff hear).mpr ⟨hn, hnr⟩) hxn
      · -- the ear alone has the variable
        have honly : ∀ n ∈ g, x ∈ n.vertices → n = r.ear := by
          intro n hn hxn
          by_contra hnr
          exact hleft ⟨n, (hg.mem_others_iff hear).mpr ⟨hn, hnr⟩, hxn⟩
        obtain ⟨e, he, hxe⟩ := hx
        refine ⟨r.ear, hear, honly e he hxe ▸ hxe, fun n hn hxn => ?_⟩
        rw [honly n hn hxn]

namespace Forest

/-- The links of a forest without their direction. -/
def graph (f : Forest) : SimpleGraph Hyperedge :=
  SimpleGraph.fromRel fun p c => p ∈ f.nodes ∧ c ∈ f.children p

/-- A node lies under another if parents lead from it to that one. -/
def Under (f : Forest) : Hyperedge → Hyperedge → Prop :=
  Relation.ReflTransGen fun c p => f.parent? c = some p

namespace Spans

variable {f : Forest} {g : Hypergraph}

theorem adj_graph_iff (h : f.Spans g) {m n : Hyperedge} :
    f.graph.Adj m n ↔ f.Link m n ∨ f.Link n m := by
  have hchild : ∀ p c, (p ∈ f.nodes ∧ c ∈ f.children p) ↔ f.Link c p := by
    intro p c
    constructor
    · rintro ⟨hp, hc⟩
      exact (h.mem_children_iff (h.mem_nodes_iff.mp hp)).mp hc
    · intro hlink
      have hp := (h.mem_of_link hlink).2
      exact ⟨h.mem_nodes_iff.mpr hp, (h.mem_children_iff hp).mpr hlink⟩
  rw [graph, SimpleGraph.fromRel_adj, hchild, hchild, or_comm]
  constructor
  · exact And.right
  · intro hlink
    refine ⟨?_, hlink⟩
    rintro rfl
    rcases hlink with hlink | hlink <;> exact absurd (h.rank_lt hlink) (lt_irrefl _)

theorem isAcyclic_graph (h : f.Spans g) : f.graph.IsAcyclic := by
  refine isAcyclic_of_rank f.rank ?_ ?_
  · intro u v hadj
    rcases h.adj_graph_iff.mp hadj with hlink | hlink
    · exact (h.rank_lt hlink).ne
    · exact (h.rank_lt hlink).ne'
  · intro u v w huv huw hv hw
    have hup : ∀ {v}, f.graph.Adj u v → f.rank u < f.rank v → f.Link u v := by
      intro v huv hv
      rcases h.adj_graph_iff.mp huv with hlink | hlink
      · exact hlink
      · exact absurd (h.rank_lt hlink) hv.not_gt
    exact h.link_unique (hup huv hv) (hup huw hw)

theorem exists_top (h : f.Spans g) {n : Hyperedge} (hn : n ∈ g) {x : String}
    (hx : x ∈ n.vertices) :
    ∃ t ∈ g, x ∈ t.vertices ∧ ∀ m ∈ g, x ∈ m.vertices →
      Relation.ReflTransGen (fun c p => f.Link c p ∧ x ∈ p.vertices) m t :=
  h.eliminates.exists_top h.distinct ⟨n, hn, hx⟩

/-- What a node under a child shares with a node that is not under it, the parent
has too, since the links of the variable lead out of the child. -/
theorem mem_vertices_of_link (h : f.Spans g) {c p m n : Hyperedge} (hlink : f.Link c p)
    (hm : m ∈ g) (hn : n ∈ g) (hmc : Relation.ReflTransGen f.Link m c)
    (hnc : ¬ Relation.ReflTransGen f.Link n c) {x : String} (hxm : x ∈ m.vertices)
    (hxn : x ∈ n.vertices) : x ∈ p.vertices := by
  obtain ⟨t, -, -, htop⟩ := h.exists_top hm hxm
  have hnt : Relation.ReflTransGen f.Link n t :=
    Relation.ReflTransGen.mono (fun _ _ hcp => hcp.1) _ _ (htop n hn hxn)
  have hleave : ∀ {m}, Relation.ReflTransGen (fun c p => f.Link c p ∧ x ∈ p.vertices) m t →
      Relation.ReflTransGen f.Link m c → Relation.ReflTransGen f.Link t c ∨ x ∈ p.vertices := by
    intro m hmt
    induction hmt using Relation.ReflTransGen.head_induction_on with
    | refl => exact Or.inl
    | head hstep _ ih =>
        intro hmc
        rcases hmc.cases_head with rfl | ⟨k, hk, hkc⟩
        · exact Or.inr (h.link_unique hstep.1 hlink ▸ hstep.2)
        · exact ih (h.link_unique hk hstep.1 ▸ hkc)
  rcases hleave (htop m hm hxm) hmc with htc | hx
  · exact absurd (hnt.trans htc) hnc
  · exact hx

/-- The forest of an acyclic hypergraph is a join forest. -/
theorem isJoinForest (h : f.Spans g) :
    IsJoinForest Hyperedge.vertexSet {n | n ∈ f.nodes} f.graph where
  acyclic := h.isAcyclic_graph.induce _
  connected := by
    intro x
    let S : Set Hyperedge := {n | n ∈ {n | n ∈ f.nodes} ∧ x ∈ n.vertexSet}
    have hreach : ∀ {m t}, Relation.ReflTransGen (fun c p => f.Link c p ∧ x ∈ p.vertices) m t →
        ∀ (hm : m ∈ S) (ht : t ∈ S), (f.graph.induce S).Reachable ⟨m, hm⟩ ⟨t, ht⟩ := by
      intro m t hpath
      induction hpath using Relation.ReflTransGen.head_induction_on with
      | refl =>
          intro hm ht
          exact SimpleGraph.Reachable.refl _
      | head hstep _ ih =>
          intro hm ht
          have hp : _ ∈ S := ⟨h.mem_nodes_iff.mpr (h.mem_of_link hstep.1).2, hstep.2⟩
          have hadj : (f.graph.induce S).Adj ⟨_, hm⟩ ⟨_, hp⟩ :=
            h.adj_graph_iff.mpr (Or.inl hstep.1)
          exact hadj.reachable.trans (ih hp ht)
    rintro ⟨u, hu⟩ ⟨v, hv⟩
    obtain ⟨t, ht, hxt, htop⟩ := h.exists_top (h.mem_nodes_iff.mp hu.1) hu.2
    have htS : t ∈ S := ⟨h.mem_nodes_iff.mpr ht, hxt⟩
    exact (hreach (htop u (h.mem_nodes_iff.mp hu.1) hu.2) hu htS).trans
      (hreach (htop v (h.mem_nodes_iff.mp hv.1) hv.2) hv htS).symm

end Spans

end Forest

end Conjunctive
