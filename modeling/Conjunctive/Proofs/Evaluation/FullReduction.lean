import Conjunctive.Proofs.Evaluation.Answer

/-!
# Full reduction

After both reductions a node has exactly those of its own rows that are parts of
solutions of its tree. From there on no join makes a row that is not such a part:
a row of a batch that has joined some children comes from rows of all the nodes
under these children, and what they share with the other nodes of the tree is at
the node itself, so that a solution of the tree through the row of the node can
be changed to take the other rows too.
-/

namespace Conjunctive

open Conjunctive.Hypergraph

namespace Forest

/-- An assignment solves the tree of a root: each atom of the tree has a row that
matches under it. -/
def SolvesTree (f : Forest) (r : Hyperedge) (σ : Assignment) : Prop :=
  ∀ m ∈ f.nodes, f.Under m r → ∀ a ∈ m.atoms, ∃ row ∈ a.rows, a.Matches σ row

/-- A row over some variables is the restriction of a solution of the tree of a root. -/
def IsPart (f : Forest) (r : Hyperedge) (vars : List String) (t : Row) : Prop :=
  ∃ σ, f.SolvesTree r σ ∧ t.denotation = vars.map σ

open Classical in
/-- The nodes have those of their own rows that are parts of solutions of their
trees, as often as they had them. -/
def FullyReduced (f : Forest) (s : NodeBatches) : Prop :=
  ∀ r ∈ f.roots, ∀ n ∈ f.nodes, f.Under n r → ∃ own, scanAll n.atoms n.vertices = .ok own ∧
    s.find? n = some ⟨own.head, own.rows.filter fun t => f.IsPart r n.vertices t⟩

/-- When joining from below reaches a node, then after any number of its children
the batch it has come to is over the variables of all the nodes joined, and its
rows are parts of solutions of the tree. -/
def JoinsParts (f : Forest) (headVars : List String) (s : NodeBatches) : Prop :=
  ∀ r ∈ f.roots, ∀ n ∈ f.nodes, f.Under n r →
    ∀ before after, f.innerBottomUp = before ++ n :: after →
      ∃ s' own, before.foldlM (f.joinNode headVars) s = .ok s' ∧ s'.get n = .ok own ∧
        ∀ cs, cs <+: f.children n → ∃ b, joinNodes headVars s' own cs = .ok b ∧
          (∀ v, v ∈ b.head.vars ↔
            v ∈ n.vertices ∨ ∃ c ∈ cs, ∃ m ∈ f.nodes, f.Under m c ∧ v ∈ m.vertices) ∧
          ∀ t ∈ b.rows, f.IsPart r b.head.vars t

namespace Spans

variable {f : Forest} {q : Query} {r n : Hyperedge}

/-- To solve a tree is to solve all the nodes under its root. -/
theorem solvesTree_iff {g : Hypergraph} (h : f.Spans g) {σ : Assignment} :
    f.SolvesTree r σ ↔ f.SolvesUnder g r σ := by
  constructor
  · intro hσ m hm hmr
    exact prod_hits_pos_iff.mpr (hσ m (h.mem_nodes_iff.mpr hm) ((h.under_iff hm).mpr hmr))
  · intro hσ m hm hmr
    rw [h.mem_nodes_iff] at hm
    exact prod_hits_pos_iff.mp (hσ m hm ((h.under_iff hm).mp hmr))

/-- A row with the values of an assignment is part of a solution if this agrees with
a solution on the variables. -/
theorem isPart_iff {g : Hypergraph} (h : f.Spans g) {vars : List String} {t : Row}
    {σ : Assignment} (ht : t.denotation = vars.map σ) :
    f.IsPart r vars t ↔ ∃ ρ, f.SolvesUnder g r ρ ∧ ∀ v ∈ vars, ρ v = σ v := by
  refine exists_congr fun ρ => and_congr h.solvesTree_iff ?_
  rw [ht, List.map_inj_left]
  exact forall₂_congr fun v _ => eq_comm

/-- After both reductions nothing but parts of solutions is left. -/
theorem fullyReduced {g : Hypergraph} (h : f.Spans g) (hg : g.Loaded) {s : NodeBatches}
    (hs : f.Consistent g s) : f.FullyReduced s := by
  classical
  intro r hr n hn hnr
  rw [h.mem_nodes_iff] at hn
  rw [h.under_iff hn] at hnr
  obtain ⟨own, hscan, hpart⟩ := hs.sifts.includes n hn
  obtain ⟨own', hscan', hclean, hvars, hweight⟩ := scanAll_eq (hg n hn).1 (hg n hn).2
  cases hscan.symm.trans hscan'
  refine ⟨own, hscan, ?_⟩
  obtain ⟨b, hb⟩ := Option.isSome_iff_exists.mp (hs.sifts.has n hn)
  have hbatch : s.batch n = b := by
    rw [NodeBatches.batch, hb]
    rfl
  rw [hb, Option.some.injEq, ← hbatch]
  refine hpart.eq_filter hclean (P := fun σ => ∃ ρ, f.SolvesUnder g r ρ ∧
    ∀ v ∈ n.vertices, ρ v = σ v) (fun t _ σ ht => ?_) fun σ => ?_
  · rw [decide_eq_true_iff, h.isPart_iff (hvars ▸ ht)]
  · rw [h.weight_eq_of_consistent hg hs hn hr hnr σ, hweight]
    rfl

/-- A row of a node together with rows of some of its children, which have been
joined with all below them, is part of a solution. Only the node itself has
variables both of nodes under these children and of others; so the values of a
solution through the row are kept, except on the variables below. -/
theorem exists_solution_of_joinedOn {g : Hypergraph} (h : f.Spans g) {down s : NodeBatches}
    (hdown : f.Consistent g down) {done : List Hyperedge}
    (hs : ∀ n ∈ done, n ∈ g ∧ f.Joined down s n ∧ ∀ c ∈ f.children n, c ∈ done)
    (hn : n ∈ g) (hr : r ∈ f.roots) (hpath : Relation.ReflTransGen f.Link n r)
    {cs : List Hyperedge} (hcs : ∀ c ∈ cs, f.Link c n ∧ c ∈ done) {σ : Assignment}
    (hσ : 0 < (down.batch n).weight σ) (hσcs : ∀ c ∈ cs, 0 < (s.batch c).weight σ) :
    ∃ ρ, f.SolvesUnder g r ρ ∧ (∀ v ∈ n.vertices, ρ v = σ v) ∧
      ∀ c ∈ cs, ∀ m ∈ g, Relation.ReflTransGen f.Link m c → ∀ v ∈ m.vertices, ρ v = σ v := by
  classical
  obtain ⟨τ, hτn, hτ⟩ := h.exists_solution hdown hn hr hpath hσ
  let Below (m : Hyperedge) : Prop := ∃ c ∈ cs, Relation.ReflTransGen f.Link m c
  let ρ : Assignment := fun v => if ∃ m ∈ g, Below m ∧ v ∈ m.vertices then σ v else τ v
  have hbelow : ∀ m ∈ g, Below m → ∀ v ∈ m.vertices, ρ v = σ v :=
    fun m hm hmcs v hv => if_pos ⟨m, hm, hmcs, hv⟩
  have hother : ∀ m ∈ g, ¬ Below m → ∀ v ∈ m.vertices, ρ v = τ v := by
    intro m hm hmcs v hv
    change (if ∃ m ∈ g, Below m ∧ v ∈ m.vertices then σ v else τ v) = τ v
    split_ifs with hshared
    · obtain ⟨k, hk, ⟨c, hc, hkc⟩, hvk⟩ := hshared
      have hmc : ¬ Relation.ReflTransGen f.Link m c := fun hmc => hmcs ⟨c, hc, hmc⟩
      exact (hτn v (h.mem_vertices_of_link (hcs c hc).1 hk hm hkc hmc hvk hv)).symm
    · rfl
  refine ⟨ρ, fun m hm hmr => ?_, fun v hv => ?_, fun c hc m hm hmc => hbelow m hm ⟨c, hc, hmc⟩⟩
  · have hvars := hdown.sifts.vars_eq m hm
    refine Nat.lt_of_lt_of_le ?_ (hdown.sifts.weight_le m hm ρ)
    by_cases hmcs : Below m
    · obtain ⟨c, hc, hmc⟩ := hmcs
      rw [Batch.weight_congr fun v hv => hbelow m hm ⟨c, hc, hmc⟩ v (hvars ▸ hv)]
      exact h.weight_pos_of_joinedOn hs (hcs c hc).2 hmc (hσcs c hc)
    · rw [Batch.weight_congr fun v hv => hother m hm hmcs v (hvars ▸ hv)]
      exact hτ m hm hmr
  · by_cases hncs : Below n
    · exact hbelow n hn hncs v hv
    · exact (hother n hn hncs v hv).trans (hτn v hv)

/-- Where all links are consistent, joining from below makes no row in vain. -/
theorem joinsParts {g : Hypergraph} (h : f.Spans g) {down : NodeBatches}
    (hdown : f.Consistent g down) (headVars : List String) : f.JoinsParts headVars down := by
  have hready : ∀ n ∈ g, down.Has n ∧ (down.batch n).Clean :=
    fun n hn => ⟨hdown.sifts.has n hn, hdown.sifts.clean n hn⟩
  obtain ⟨hvisits, hall⟩ := h.visits_innerBottomUp
  intro r hr n hn hnr before after hsplit
  rw [hsplit] at hvisits
  obtain ⟨hbefore, hnew, hchildren, -⟩ := hvisits.of_append
  obtain ⟨s, hrun, hdone, hleft⟩ : ∃ s, before.foldlM (f.joinNode headVars) down = .ok s ∧
      f.JoinedOn g down (f.leaves ++ before) s := by
    refine hbefore.foldlM (fun _ _ m hs hm => h.joinedOn_step hready hs ((hall m).mp ?_))
      (h.joinedOn_leaves hready)
    rw [hsplit]
    simp [hm]
  rw [h.mem_nodes_iff] at hn
  rw [h.under_iff hn] at hnr
  obtain ⟨hhas, hbatch⟩ := hleft n hn hnew
  refine ⟨s, s.batch n, hrun, NodeBatches.get_eq hhas, fun cs hcs => ?_⟩
  have hcs' : ∀ c ∈ cs, f.Link c n ∧ c ∈ f.leaves ++ before := by
    intro c hc
    have hchild := hcs.subset hc
    exact ⟨(h.mem_children_iff hn).mp hchild, hchildren c hchild⟩
  have hvarsc : ∀ c ∈ cs, ∀ v, v ∈ (s.batch c).head.vars ↔ ∃ m ∈ g, f.Under m c ∧ v ∈ m.vertices :=
    fun c hc => h.mem_vars_iff_of_joinedOn hdown.sifts.vars_eq hdone (hcs' c hc).2
  obtain ⟨b, hjoin, hclean, hvars, hweight⟩ := joinNodes_eq
    (fun c hc => ⟨(hdone c (hcs' c hc).2).2.1.has, (hdone c (hcs' c hc).2).2.1.clean⟩)
    headVars (hbatch ▸ (hready n hn).2)
  rw [hbatch] at hvars hweight
  rw [hdown.sifts.vars_eq n hn] at hvars
  refine ⟨b, hjoin, fun v => ?_, fun t ht => ?_⟩
  · rw [hvars]
    refine or_congr_right (exists_congr fun c => and_congr_right fun hc => ?_)
    rw [hvarsc c hc]
    exact exists_congr fun m => and_congr_left' h.mem_nodes_iff.symm
  · obtain ⟨σ, hσ⟩ := hclean.coherent t ht
    have hpos : 0 < b.weight σ := Batch.weight_pos_iff.mpr ⟨t, ht, hσ⟩
    rw [hweight] at hpos
    obtain ⟨ρ, hρ, hρn, hρcs⟩ := h.exists_solution_of_joinedOn hdown hdone hn hr hnr hcs'
      (Nat.pos_of_mul_pos_right hpos)
      fun c hc => pos_of_prod_map_pos (Nat.pos_of_mul_pos_left hpos) hc
    refine (h.isPart_iff hσ).mpr ⟨ρ, hρ, fun v hv => ?_⟩
    rcases (hvars v).mp hv with hv | ⟨c, hc, hv⟩
    · exact hρn v hv
    · obtain ⟨m, hm, hmc, hv⟩ := (hvarsc c hc v).mp hv
      exact hρcs c hc m hm ((h.under_iff hm).mp hmc) v hv

end Spans

end Forest

namespace Query

/-- The two reductions are a full reduction, and joining from below makes nothing
in vain. After the reductions each node has exactly those rows of its atoms, with
their repetitions, that are parts of solutions of its tree; and after any number
of joins with its children so are all the rows it has then. -/
theorem fullReduction_of_forest? {q : Query} {f : Forest} (hhead : q.head.vars ≠ [])
    (hready : ∀ a ∈ q.body, a.Ready) (hground : q.GroundAtomsMatch)
    (hf : (ofQuery q).forest? = some f) (distinct : Bool) :
    ∃ up down joined answer, f.reduceUp = .ok up ∧ f.reduceDown up = .ok down ∧
      f.joinUp q.head.vars down = .ok joined ∧
      Evaluation.run q distinct =
        ⟨some f, [⟨.reducingUp, up⟩, ⟨.reducingDown, down⟩, ⟨.joining, joined⟩], .combined,
          .ok (.batch answer)⟩ ∧
      f.FullyReduced down ∧ f.JoinsParts q.head.vars down := by
  have hspans := Forest.spans_of_forest? (merges_ofQuery q).distinct hf
  have hboolean : q.isBoolean = false := List.isEmpty_eq_false_iff.mpr hhead
  obtain ⟨up, down, joined, c, hpasses, hconsistent, hclean, -⟩ := hspans.exists_passes hready
  obtain ⟨answer, hfinish⟩ : ∃ answer, q.finish distinct c = .ok answer :=
    ⟨_, finish_eq q distinct hclean⟩
  refine ⟨up, down, joined, answer, hpasses.up_eq, hpasses.down_eq, hpasses.join_eq, ?_,
    hspans.fullyReduced (loaded_ofQuery hready) hconsistent,
    hspans.joinsParts hconsistent q.head.vars⟩
  rw [run_eq hready hf, if_pos hground, hpasses.onForest_eq hboolean hfinish]

/-- A chain of three atoms, where the first and the second have a row that goes with
no row of their neighbours, and the first has a row twice. -/
def danglingChain : Query :=
  { head := Head.ofVars ["x", "u"]
    body :=
      [.ofPairs "r" (.variable "x") (.variable "y")
          [(.int 1, .int 2), (.int 4, .int 9), (.int 1, .int 2)] (by decide),
        .ofPairs "s" (.variable "y") (.variable "z")
          [(.int 2, .int 5), (.int 7, .int 5), (.int 2, .text "none")] (by decide),
        .ofPairs "t" (.variable "z") (.variable "u")
          [(.int 5, .null), (.int 5, .bool true)] (by decide)] }

theorem ready_danglingChain : ∀ a ∈ danglingChain.body, a.Ready := by
  simp only [danglingChain, List.forall_mem_cons]
  exact ⟨Atom.ready_ofPairs _, Atom.ready_ofPairs _, Atom.ready_ofPairs _, by simp⟩

theorem fullReduction_danglingChain :
    ∃ f up down joined answer, f.reduceUp = .ok up ∧ f.reduceDown up = .ok down ∧
      f.joinUp danglingChain.head.vars down = .ok joined ∧
      Evaluation.run danglingChain false =
        ⟨some f, [⟨.reducingUp, up⟩, ⟨.reducingDown, down⟩, ⟨.joining, joined⟩], .combined,
          .ok (.batch answer)⟩ ∧
      f.FullyReduced down ∧ f.JoinsParts danglingChain.head.vars down := by
  obtain ⟨f, hf⟩ := Option.isSome_iff_exists.mp
    (by cbv : (ofQuery danglingChain).forest?.isSome = true)
  exact ⟨f, fullReduction_of_forest? (List.cons_ne_nil _ _) ready_danglingChain (by decide) hf false⟩

end Query

end Conjunctive
