import Conjunctive.Proofs.Evaluation.Semijoins
import Conjunctive.Proofs.Forest.Walk

/-!
# Reducing from below

After the reduction from below, an assignment has its own weight at a node if
each child has a row that agrees with it, and no weight otherwise (`Reduced`).
No row that a solution of the tree needs is dropped, and none is added: that is
`Sifts`, which the reduction from above will keep.
-/

namespace Conjunctive

open Row Conjunctive.Hypergraph

namespace Forest

/-- Whether every child of a node has a row that agrees with an assignment. -/
def Supported (f : Forest) (s : NodeBatches) (n : Hyperedge) (σ : Assignment) : Prop :=
  ∀ c ∈ f.children n, (s.batch c).Meets n.vertices σ

open Classical in
/-- A node is reduced by its children: the rows of its atoms are kept if they have
a partner in each child. -/
structure Reduced (f : Forest) (s : NodeBatches) (n : Hyperedge) : Prop where
  has : s.Has n
  clean : (s.batch n).Clean
  vars_eq : (s.batch n).head.vars = n.vertices
  includes : n.Includes (s.batch n)
  weight_eq : ∀ σ, (s.batch n).weight σ = if f.Supported s n σ then n.own σ else 0

/-- The nodes done are reduced, and their children are among them. -/
def ReducedOn (f : Forest) (g : Hypergraph) (done : List Hyperedge) (s : NodeBatches) : Prop :=
  ∀ m ∈ done, m ∈ g ∧ f.Reduced s m ∧ ∀ c ∈ f.children m, c ∈ done

open Classical in
/-- What a node gets from its atoms and its children. -/
theorem reduceNode_eq {f : Forest} {s : NodeBatches} {n : Hyperedge} (hne : n.atoms ≠ [])
    (hatoms : Solvable n.atoms n.vertices)
    (hchildren : ∀ c ∈ f.children n, s.Has c ∧ (s.batch c).Clean) :
    ∃ b, f.reduceNode s n = .ok (s.set n b) ∧ b.Clean ∧ b.head.vars = n.vertices ∧
      n.Includes b ∧ ∀ σ, b.weight σ = if f.Supported s n σ then n.own σ else 0 := by
  obtain ⟨own, hscan, hclean, hvars, hweight⟩ := scanAll_eq hne hatoms
  have hincludes : n.Includes own := ⟨own, hscan, Batch.PartOf.refl own⟩
  by_cases hleaf : f.children n = []
  · refine ⟨own, reduceNode_of_leaf hleaf hscan, hclean, hvars, hincludes, fun σ => ?_⟩
    have hsupported : f.Supported s n σ := by
      intro c hc
      rw [hleaf] at hc
      cases hc
    rw [hweight, if_pos hsupported, Hyperedge.own]
  · refine ⟨_, reduceNode_of_children hscan hclean.regular hleaf (forall₂_get fun c hc =>
      (hchildren c hc).1) ?_, hclean.filter _, hvars, hincludes.filter _, fun σ => ?_⟩
    · intro c hc
      obtain ⟨d, hd, rfl⟩ := List.mem_map.mp hc
      exact (hchildren d hd).2.regular
    · have hown : n.own σ = own.weight σ := (hweight σ).symm
      rw [hown]
      apply Batch.weight_filter
      intro r hr hσ
      rw [List.all_map, List.all_eq_true, Supported]
      apply forall₂_congr
      intro c hc
      rw [← hvars]
      exact Batch.any_compatible_iff (hchildren c hc).2 hσ

namespace Spans

variable {f : Forest} {g : Hypergraph}

theorem vertices_ne (h : f.Spans g) {m n : Hyperedge} (hm : m ∈ g) (hn : n ∈ g) (hne : m ≠ n) :
    m.vertices ≠ n.vertices :=
  fun heq => hne (h.distinct.eq_of_vertices_eq hm hn heq)

/-- Setting a node leaves the children of another alone, unless it is among them. -/
theorem batch_set_child (h : f.Spans g) (s : NodeBatches) {m n : Hyperedge} (b : Batch)
    (hm : m ∈ g) (hn : n ∈ g) (hchildren : n ∉ f.children m) :
    ∀ c ∈ f.children m, (s.set n b).batch c = s.batch c := by
  intro c hc
  have hcn : c ≠ n := fun heq => hchildren (heq ▸ hc)
  exact NodeBatches.batch_set_of_ne (h.vertices_ne (h.mem_of_mem_children hm hc) hn hcn)

/-- Setting a node to a batch of its kind keeps all batches of their kinds. -/
theorem forall_batch_set (h : f.Spans g) {P : Hyperedge → Batch → Prop} {s : NodeBatches}
    (hs : ∀ m ∈ g, P m (s.batch m)) {n : Hyperedge} (hn : n ∈ g) {b : Batch} (hb : P n b) :
    ∀ m ∈ g, P m ((s.set n b).batch m) := by
  intro m hm
  by_cases hmn : m = n
  · rw [hmn, NodeBatches.batch_set_self]
    exact hb
  · rw [NodeBatches.batch_set_of_ne (h.vertices_ne hm hn hmn)]
    exact hs m hm

/-- A node is set after its children and joins the nodes done. What holds there of
a node and its children is not touched by that. -/
theorem forall_done_set {P : NodeBatches → Hyperedge → Prop} {s : NodeBatches}
    {done : List Hyperedge} {n : Hyperedge} {b : Batch}
    (hkeep : ∀ m ∈ g, m ≠ n → n ∉ f.children m → P s m → P (s.set n b) m)
    (hs : ∀ m ∈ done, m ∈ g ∧ P s m ∧ ∀ c ∈ f.children m, c ∈ done) (hn : n ∈ g)
    (hnew : n ∉ done) (hchildren : ∀ c ∈ f.children n, c ∈ done) (hself : P (s.set n b) n) :
    ∀ m ∈ done ++ [n], m ∈ g ∧ P (s.set n b) m ∧ ∀ c ∈ f.children m, c ∈ done ++ [n] := by
  intro m hm
  rcases List.mem_append.mp hm with hm | hm
  · obtain ⟨hmg, hP, hclosed⟩ := hs m hm
    have hmn : m ≠ n := fun heq => hnew (heq ▸ hm)
    refine ⟨hmg, hkeep m hmg hmn (fun hc => hnew (hclosed n hc)) hP, ?_⟩
    intro c hc
    exact List.mem_append_left _ (hclosed c hc)
  · rw [List.mem_singleton.mp hm]
    exact ⟨hn, hself, fun c hc => List.mem_append_left _ (hchildren c hc)⟩

theorem supported_set (h : f.Spans g) {s : NodeBatches} {m n : Hyperedge} {b : Batch}
    (hm : m ∈ g) (hn : n ∈ g) (hchildren : n ∉ f.children m) (σ : Assignment) :
    f.Supported (s.set n b) m σ ↔ f.Supported s m σ := by
  apply forall₂_congr
  intro c hc
  rw [h.batch_set_child s b hm hn hchildren c hc]

/-- A node stays reduced when a node other than itself and its children is set. -/
theorem reduced_set (h : f.Spans g) {s : NodeBatches} {m n : Hyperedge} {b : Batch}
    (hm : m ∈ g) (hn : n ∈ g) (hmn : m ≠ n) (hchildren : n ∉ f.children m) (hs : f.Reduced s m) :
    f.Reduced (s.set n b) m := by
  have hbatch : (s.set n b).batch m = s.batch m :=
    NodeBatches.batch_set_of_ne (h.vertices_ne hm hn hmn)
  refine ⟨NodeBatches.has_set hs.has, ?_, ?_, ?_, fun σ => ?_⟩
  · rw [hbatch]
    exact hs.clean
  · rw [hbatch]
    exact hs.vars_eq
  · rw [hbatch]
    exact hs.includes
  · rw [hbatch, hs.weight_eq, h.supported_set hm hn hchildren]

/-- One step keeps the nodes done reduced and adds a node whose children they have. -/
theorem reducedOn_step (h : f.Spans g) (hg : g.Loaded) {done : List Hyperedge} {s : NodeBatches}
    {n : Hyperedge} (hs : f.ReducedOn g done s) (hn : n ∈ g) (hnew : n ∉ done)
    (hchildren : ∀ c ∈ f.children n, c ∈ done) :
    ∃ s', f.reduceNode s n = .ok s' ∧ f.ReducedOn g (done ++ [n]) s' := by
  obtain ⟨hne, hatoms⟩ := hg n hn
  obtain ⟨b, hrun, hclean, hvars, hincludes, hweight⟩ := reduceNode_eq hne hatoms fun c hc =>
    ⟨(hs c (hchildren c hc)).2.1.has, (hs c (hchildren c hc)).2.1.clean⟩
  refine ⟨s.set n b, hrun, forall_done_set ?_ hs hn hnew hchildren ?_⟩
  · intro m hm hmn hnm hreduced
    exact h.reduced_set hm hn hmn hnm hreduced
  · constructor
    · exact NodeBatches.has_set_self s n b
    · rw [NodeBatches.batch_set_self]
      exact hclean
    · rw [NodeBatches.batch_set_self]
      exact hvars
    · rw [NodeBatches.batch_set_self]
      exact hincludes
    · intro σ
      rw [NodeBatches.batch_set_self, hweight,
        h.supported_set hn hn fun hc => hnew (hchildren n hc)]

/-- The reduction from below reduces every node. -/
theorem reduceUp_eq (h : f.Spans g) (hg : g.Loaded) :
    ∃ s, f.reduceUp = .ok s ∧ ∀ n ∈ g, f.Reduced s n := by
  obtain ⟨hvisits, hall⟩ := h.visits_bottomUp
  have hstart : f.ReducedOn g [] .none := by
    intro m hm
    cases hm
  obtain ⟨s, hrun, hs⟩ : ∃ s, f.bottomUp.foldlM f.reduceNode .none = .ok s ∧
      f.ReducedOn g ([] ++ f.bottomUp) s :=
    hvisits.foldlM (fun _ _ n hs hn => h.reducedOn_step hg hs ((hall n).mp hn)) hstart
  exact ⟨s, hrun, fun n hn => (hs n ((hall n).mpr hn)).2.1⟩

end Spans

end Forest

/-! ### What the reductions keep -/

/-- An assignment that solves all the nodes. -/
def Hypergraph.Solves (g : Hypergraph) (σ : Assignment) : Prop := ∀ n ∈ g, 0 < n.own σ

/-- An assignment that solves all the nodes under a node. -/
def Forest.SolvesUnder (f : Forest) (g : Hypergraph) (r : Hyperedge) (σ : Assignment) : Prop :=
  ∀ n ∈ g, Relation.ReflTransGen f.Link n r → 0 < n.own σ

/-- The batches at the nodes have no rows but their own, and all the rows that
the solutions of their trees need. -/
structure NodeBatches.Sifts (s : NodeBatches) (f : Forest) (g : Hypergraph) : Prop where
  has : ∀ n ∈ g, s.Has n
  clean : ∀ n ∈ g, (s.batch n).Clean
  vars_eq : ∀ n ∈ g, (s.batch n).head.vars = n.vertices
  includes : ∀ n ∈ g, n.Includes (s.batch n)
  weight_le : ∀ n ∈ g, ∀ σ, (s.batch n).weight σ ≤ n.own σ
  weight_eq : ∀ n ∈ g, ∀ r ∈ f.roots, Relation.ReflTransGen f.Link n r →
    ∀ σ, f.SolvesUnder g r σ → (s.batch n).weight σ = n.own σ

namespace Forest.Spans

variable {f : Forest} {g : Hypergraph}

/-- Nothing that a solution of all the nodes needs is missing. -/
theorem weight_eq_of_solves (h : f.Spans g) {s : NodeBatches} (hs : s.Sifts f g) {n : Hyperedge}
    (hn : n ∈ g) {σ : Assignment} (hσ : g.Solves σ) : (s.batch n).weight σ = n.own σ := by
  obtain ⟨r, hr, hpath⟩ := h.exists_root hn
  exact hs.weight_eq n hn r hr hpath σ fun m hm _ => hσ m hm

/-- The rows that a solution needs have partners in the children, namely those
that the solution needs there. -/
theorem sifts_of_reduced (h : f.Spans g) {s : NodeBatches} (hs : ∀ n ∈ g, f.Reduced s n) :
    s.Sifts f g where
  has := fun n hn => (hs n hn).has
  clean := fun n hn => (hs n hn).clean
  vars_eq := fun n hn => (hs n hn).vars_eq
  includes := fun n hn => (hs n hn).includes
  weight_le := by
    intro n hn σ
    rw [(hs n hn).weight_eq]
    split_ifs
    · exact Nat.le_refl _
    · exact Nat.zero_le _
  weight_eq := by
    intro n hn r _ hpath σ hσ
    refine h.induction_up (P := fun n => Relation.ReflTransGen f.Link n r →
      (s.batch n).weight σ = n.own σ) (fun n hn hchildren hpath => ?_) hn hpath
    have hsupported : f.Supported s n σ := by
      intro c hc
      have hcr := hpath.head ((h.mem_children_iff hn).mp hc)
      refine Batch.meets_of_weight_pos ?_ _
      rw [hchildren c hc hcr]
      exact hσ c (h.mem_of_mem_children hn hc) hcr
    rw [(hs n hn).weight_eq, if_pos hsupported]

end Forest.Spans

/-! ### Solutions from the roots -/

/-- A row of an ear is put together with rows of the nodes left in a set `T`, if they
agree on all that the ear shares with these. -/
theorem Hypergraph.exists_glued {g : Hypergraph} (hg : g.Distinct) {s : NodeBatches}
    (hvars : ∀ n ∈ g, (s.batch n).head.vars = n.vertices) {c : Hyperedge} (hc : c ∈ g)
    {T : Set Hyperedge} {ρ τ : Assignment} (hτ : 0 < (s.batch c).weight τ)
    (hρ : ∀ n ∈ others c g, n ∈ T → 0 < (s.batch n).weight ρ)
    (hagree : ∀ n ∈ others c g, ∀ v ∈ n.vertices, v ∈ c.vertices → ρ v = τ v) :
    ∃ ρ' : Assignment, (∀ v ∈ c.vertices, ρ' v = τ v) ∧
      (∀ n ∈ others c g, ∀ v ∈ n.vertices, ρ' v = ρ v) ∧
      ∀ n ∈ g, n ∈ T → 0 < (s.batch n).weight ρ' := by
  have hear : ∀ v ∈ c.vertices, (if v ∈ c.vertices then τ v else ρ v) = τ v :=
    fun v hv => if_pos hv
  have hleft : ∀ n ∈ others c g, ∀ v ∈ n.vertices,
      (if v ∈ c.vertices then τ v else ρ v) = ρ v := by
    intro n hn v hv
    split_ifs with hvc
    · exact (hagree n hn v hv hvc).symm
    · rfl
  refine ⟨fun v => if v ∈ c.vertices then τ v else ρ v, hear, hleft, fun n hn hnT => ?_⟩
  by_cases hnc : n = c
  · rw [hnc, Batch.weight_congr (τ := τ) fun v hv => hear v (hvars c hc ▸ hv)]
    exact hτ
  · have hother := (hg.mem_others_iff hc).mpr ⟨hn, hnc⟩
    rw [Batch.weight_congr (τ := ρ) fun v hv => hleft n hother v (hvars n hn ▸ hv)]
    exact hρ n hother hnT

/-- A solution of the nodes left is changed on the variables of an ear. The
witness has all of these that occur elsewhere, so no other node notices. -/
theorem Hypergraph.Eliminates.exists_weight_pos {rs : List Removal} {g : Hypergraph}
    (hg : g.Distinct) (h : Hypergraph.Eliminates rs g []) {s : NodeBatches}
    (hvars : ∀ n ∈ g, (s.batch n).head.vars = n.vertices)
    (hroot : ∀ c, ⟨c, none⟩ ∈ rs → ∃ σ, 0 < (s.batch c).weight σ)
    (hlink : ∀ c p, ⟨c, some p⟩ ∈ rs → ∀ σ, 0 < (s.batch p).weight σ →
      (s.batch c).Meets p.vertices σ) :
    ∃ σ, ∀ n ∈ g, 0 < (s.batch n).weight σ := by
  induction rs generalizing g with
  | nil =>
      cases h
      exact ⟨fun _ => .nothing, by simp⟩
  | cons r rs ih =>
      obtain ⟨c, w⟩ := r
      obtain ⟨hc, hw, hrest⟩ := h
      have hothers : ∀ n ∈ others c g, n ∈ g := fun n hn => (mem_others.mp hn).1
      obtain ⟨σ, hσ⟩ := ih (hg.sublist (others_sublist c g)) hrest
        (fun n hn => hvars n (hothers n hn))
        (fun c hc => hroot c (List.mem_cons_of_mem _ hc))
        (fun c p hcp => hlink c p (List.mem_cons_of_mem _ hcp))
      have hτ : ∃ τ, 0 < (s.batch c).weight τ ∧
          ∀ n ∈ others c g, ∀ v ∈ n.vertices, v ∈ c.vertices → σ v = τ v := by
        cases w with
        | none =>
            obtain ⟨τ, hτ⟩ := hroot c (by simp)
            exact ⟨τ, hτ, fun n hn v hvn hvc => absurd hvn (hw v hvc n hn)⟩
        | some p =>
            obtain ⟨τ, hagree, hτ⟩ := hlink c p (by simp) σ (hσ p hw.1)
            refine ⟨τ, hτ, fun n hn v hvn hvc => hagree v (hw.2 v hvc ⟨n, hn, hvn⟩) ?_⟩
            rw [hvars c hc]
            exact hvc
      obtain ⟨τ, hpos, hagree⟩ := hτ
      obtain ⟨ρ, -, -, hρ⟩ := exists_glued (T := Set.univ) hg hvars hc hpos
        (fun n hn _ => hσ n hn) hagree
      exact ⟨ρ, fun n hn => hρ n hn (Set.mem_univ n)⟩

/-- Reduced from below, the roots all have rows if and only if some assignment
solves all the nodes. -/
theorem Forest.Spans.roots_rows_iff {f : Forest} {g : Hypergraph} (h : f.Spans g)
    {s : NodeBatches} (hs : ∀ n ∈ g, f.Reduced s n) :
    (∀ r ∈ f.roots, (s.batch r).rows ≠ []) ↔ ∃ σ, g.Solves σ := by
  have hsifts := h.sifts_of_reduced hs
  constructor
  · intro hrows
    have hroot : ∀ c, ⟨c, none⟩ ∈ f.removals → ∃ σ, 0 < (s.batch c).weight σ := by
      intro c hc
      have hcg : c ∈ g := h.mem_iff_ear.mpr ⟨_, hc, rfl⟩
      refine (hsifts.clean c hcg).rows_ne_nil_iff.mp (hrows c (h.mem_roots_iff.mpr ⟨hcg, ?_⟩))
      intro p hlink
      cases h.eliminates.eq_of_ear_eq h.distinct hc hlink rfl
    have hlink : ∀ c p, ⟨c, some p⟩ ∈ f.removals → ∀ σ, 0 < (s.batch p).weight σ →
        (s.batch c).Meets p.vertices σ := by
      intro c p hcp σ hσ
      have hp : p ∈ g := (h.mem_of_link hcp).2
      rw [(hs p hp).weight_eq] at hσ
      split_ifs at hσ with hsupported
      · exact hsupported c ((h.mem_children_iff hp).mpr hcp)
      · cases hσ
    obtain ⟨σ, hσ⟩ := h.eliminates.exists_weight_pos h.distinct hsifts.vars_eq hroot hlink
    exact ⟨σ, fun n hn => (hσ n hn).trans_le (hsifts.weight_le n hn σ)⟩
  · rintro ⟨σ, hσ⟩ r hr
    have hrg := (h.mem_roots_iff.mp hr).1
    refine (hsifts.clean r hrg).rows_ne_nil_iff.mpr ⟨σ, ?_⟩
    rw [h.weight_eq_of_solves hsifts hrg hσ]
    exact hσ r hrg

end Conjunctive
