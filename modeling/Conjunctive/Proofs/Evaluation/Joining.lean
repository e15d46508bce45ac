import Conjunctive.Proofs.Evaluation.Reduction
import Conjunctive.Proofs.Forest.Product
import Conjunctive.Proofs.Forest.Shape

/-!
# Joining from below

Joining from below multiplies the weight at a node by the weights of its
children and puts their variables together (`Joined`). So the roots together
have the product of all weights. Their trees have no variable in common; hence
the combination of the roots is clean and has just this weight.
-/

namespace Conjunctive

open Conjunctive.Hypergraph

theorem pos_of_prod_map_pos {α : Type} {l : List α} {f : α → Nat} (h : 0 < (l.map f).prod)
    {a : α} (ha : a ∈ l) : 0 < f a := by
  by_contra hzero
  rw [List.prod_eq_zero (List.mem_map.mpr ⟨a, ha, by omega⟩)] at h
  exact lt_irrefl 0 h

namespace Forest

/-! ### Joining a node with its children -/

/-- Joining with several nodes, and keeping one column of each variable after
each join, multiplies weights. -/
theorem joinNodes_eq {s : NodeBatches} {ns : List Hyperedge}
    (hns : ∀ n ∈ ns, s.Has n ∧ (s.batch n).Clean) (headVars : List String) {b : Batch}
    (hb : b.Clean) :
    ∃ c, joinNodes headVars s b ns = .ok c ∧ c.Clean ∧
      (∀ v, v ∈ c.head.vars ↔ v ∈ b.head.vars ∨ ∃ n ∈ ns, v ∈ (s.batch n).head.vars) ∧
      ∀ σ, c.weight σ = b.weight σ * (ns.map fun n => (s.batch n).weight σ).prod := by
  induction ns generalizing b with
  | nil => exact ⟨b, rfl, hb, by simp, by simp⟩
  | cons n ns ih =>
      obtain ⟨hhas, hclean⟩ := hns n (by simp)
      let joined : Batch := ⟨b.head.append (s.batch n).head, b.joined (s.batch n)⟩
      let keep : List String :=
        joined.vars ++ headVars.filter fun v => !joined.head.vars.contains v
      have hjoined : joined.Clean := hb.joined hclean
      have hkeep : ∀ v ∈ joined.head.vars, v ∈ keep := fun v hv =>
        List.mem_append_left _ (Batch.mem_vars.mpr hv)
      obtain ⟨c, hrun, hc, hvars, hweight⟩ :=
        ih (fun m hm => hns m (by simp [hm])) (hjoined.restricted keep)
      refine ⟨c, ?_, hc, fun v => ?_, fun σ => ?_⟩
      · rw [joinNodes, List.foldlM_cons, NodeBatches.get_eq hhas]
        change ((liftBatch (b.join (s.batch n)) >>= fun joined => liftBatch (joined.project
          (joined.vars ++ headVars.filter fun v => !joined.head.vars.contains v))) >>= _) = _
        rw [Batch.join_eq hb.regular hclean.regular]
        change (liftBatch (joined.project keep) >>= _) = _
        rw [Batch.project_eq hjoined.regular.wellShaped]
        exact hrun
      · have hrestricted : v ∈ (joined.restricted keep).head.vars ↔
            v ∈ b.head.vars ∨ v ∈ (s.batch n).head.vars := by
          change v ∈ keep.filter joined.head.vars.contains ↔ _
          rw [List.mem_filter, List.contains_iff_mem, and_iff_right_of_imp (hkeep v)]
          exact List.mem_append
        rw [hvars, hrestricted, or_assoc]
        simp
      · rw [hweight, Batch.weight_restricted hjoined hkeep, Batch.weight_joined hb, List.map_cons,
          List.prod_cons, Nat.mul_assoc]

/-- A node is joined with its children: it had a batch from before, and the
weights of the children are multiplied with its own. -/
structure Joined (f : Forest) (before after : NodeBatches) (n : Hyperedge) : Prop where
  has : after.Has n
  clean : (after.batch n).Clean
  mem_vars_iff : ∀ v, v ∈ (after.batch n).head.vars ↔
    v ∈ (before.batch n).head.vars ∨ ∃ c ∈ f.children n, v ∈ (after.batch c).head.vars
  weight_eq : ∀ σ, (after.batch n).weight σ =
    (before.batch n).weight σ * ((f.children n).map fun c => (after.batch c).weight σ).prod

/-- The nodes done are joined and closed under children, the others are as before. -/
def JoinedOn (f : Forest) (g : Hypergraph) (before : NodeBatches) (done : List Hyperedge)
    (s : NodeBatches) : Prop :=
  (∀ m ∈ done, m ∈ g ∧ f.Joined before s m ∧ ∀ c ∈ f.children m, c ∈ done) ∧
    ∀ m ∈ g, m ∉ done → s.Has m ∧ s.batch m = before.batch m

/-- One step of joining from below. -/
def joinNode (f : Forest) (headVars : List String) (s : NodeBatches) (n : Hyperedge) :
    Except EvaluationError NodeBatches := do
  let own ← s.get n
  let joined ← joinNodes headVars s own (f.children n)
  pure (s.set n joined)

namespace Spans

variable {f : Forest} {g : Hypergraph}

theorem mem_vars_children_set (h : f.Spans g) {s : NodeBatches} {m n : Hyperedge} {b : Batch}
    (hm : m ∈ g) (hn : n ∈ g) (hchildren : n ∉ f.children m) (v : String) :
    (∃ c ∈ f.children m, v ∈ ((s.set n b).batch c).head.vars) ↔
      ∃ c ∈ f.children m, v ∈ (s.batch c).head.vars := by
  apply exists_congr
  intro c
  apply and_congr_right
  intro hc
  rw [h.batch_set_child s b hm hn hchildren c hc]

theorem weights_children_set (h : f.Spans g) {s : NodeBatches} {m n : Hyperedge} {b : Batch}
    (hm : m ∈ g) (hn : n ∈ g) (hchildren : n ∉ f.children m) (σ : Assignment) :
    (f.children m).map (fun c => ((s.set n b).batch c).weight σ) =
      (f.children m).map fun c => (s.batch c).weight σ := by
  apply List.map_congr_left
  intro c hc
  rw [h.batch_set_child s b hm hn hchildren c hc]

/-- A node stays joined when a node other than itself and its children is set. -/
theorem joined_set (h : f.Spans g) {before s : NodeBatches} {m n : Hyperedge} {b : Batch}
    (hm : m ∈ g) (hn : n ∈ g) (hmn : m ≠ n) (hchildren : n ∉ f.children m)
    (hs : f.Joined before s m) : f.Joined before (s.set n b) m := by
  have hbatch : (s.set n b).batch m = s.batch m :=
    NodeBatches.batch_set_of_ne (h.vertices_ne hm hn hmn)
  constructor
  · exact NodeBatches.has_set hs.has
  · rw [hbatch]
    exact hs.clean
  · intro v
    rw [hbatch, hs.mem_vars_iff, h.mem_vars_children_set hm hn hchildren]
  · intro σ
    rw [hbatch, hs.weight_eq, h.weights_children_set hm hn hchildren]

/-- One step joins a node whose children are done, and leaves the others alone. -/
theorem joinedOn_step (h : f.Spans g) {before s : NodeBatches} {headVars : List String}
    (hbefore : ∀ n ∈ g, before.Has n ∧ (before.batch n).Clean) {done : List Hyperedge}
    {n : Hyperedge} (hs : f.JoinedOn g before done s) (hn : n ∈ g) (hnew : n ∉ done)
    (hchildren : ∀ c ∈ f.children n, c ∈ done) :
    ∃ s', f.joinNode headVars s n = .ok s' ∧ f.JoinedOn g before (done ++ [n]) s' := by
  obtain ⟨hdone, hother⟩ := hs
  obtain ⟨hhas, hbatch⟩ := hother n hn hnew
  have hown : (s.batch n).Clean := hbatch ▸ (hbefore n hn).2
  obtain ⟨b, hrun, hclean, hvars, hweight⟩ := joinNodes_eq
    (fun c hc => ⟨(hdone c (hchildren c hc)).2.1.has, (hdone c (hchildren c hc)).2.1.clean⟩)
    headVars hown
  have hnn : n ∉ f.children n := fun hc => hnew (hchildren n hc)
  refine ⟨s.set n b, ?_, forall_done_set ?_ hdone hn hnew hchildren ?_, ?_⟩
  · rw [joinNode, NodeBatches.get_eq hhas]
    change (joinNodes headVars s (s.batch n) (f.children n) >>= _) = _
    rw [hrun]
    rfl
  · intro m hm hmn hnm hjoined
    exact h.joined_set hm hn hmn hnm hjoined
  · constructor
    · exact NodeBatches.has_set_self s n b
    · rw [NodeBatches.batch_set_self]
      exact hclean
    · intro v
      rw [NodeBatches.batch_set_self, hvars, hbatch, h.mem_vars_children_set hn hn hnn]
    · intro σ
      rw [NodeBatches.batch_set_self, hweight, hbatch, h.weights_children_set hn hn hnn]
  · intro m hm hmnew
    have hmn : m ≠ n := fun heq => hmnew (by simp [heq])
    obtain ⟨hmhas, hmbatch⟩ := hother m hm fun hd => hmnew (List.mem_append_left _ hd)
    refine ⟨NodeBatches.has_set hmhas, ?_⟩
    rw [NodeBatches.batch_set_of_ne (h.vertices_ne hm hn hmn)]
    exact hmbatch

/-- The leaves are joined from the start, having no children. -/
theorem joinedOn_leaves (h : f.Spans g) {before : NodeBatches}
    (hbefore : ∀ n ∈ g, before.Has n ∧ (before.batch n).Clean) :
    f.JoinedOn g before f.leaves before := by
  refine ⟨fun m hm => ?_, fun m hm _ => ⟨(hbefore m hm).1, rfl⟩⟩
  obtain ⟨hg, hnil⟩ := h.mem_leaves_iff.mp hm
  obtain ⟨hhas, hclean⟩ := hbefore m hg
  refine ⟨hg, ⟨hhas, hclean, ?_, ?_⟩, ?_⟩ <;> rw [hnil] <;> simp

/-- Joining from below joins every node with its children. -/
theorem joinUp_eq (h : f.Spans g) {before : NodeBatches}
    (hbefore : ∀ n ∈ g, before.Has n ∧ (before.batch n).Clean) (headVars : List String) :
    ∃ s, f.joinUp headVars before = .ok s ∧ ∀ n ∈ g, f.Joined before s n := by
  obtain ⟨hvisits, hall⟩ := h.visits_innerBottomUp
  obtain ⟨s, hrun, hs⟩ : ∃ s, f.innerBottomUp.foldlM (f.joinNode headVars) before = .ok s ∧
      f.JoinedOn g before (f.leaves ++ f.innerBottomUp) s :=
    hvisits.foldlM
      (fun _ _ n hs hn => h.joinedOn_step hbefore hs ((hall n).mp (List.mem_append_right _ hn)))
      (h.joinedOn_leaves hbefore)
  exact ⟨s, hrun, fun n hn => (hs.1 n ((hall n).mpr hn)).2.1⟩

/-! ### The combination of the roots -/

/-- A joined node has the variables of all the nodes under it. -/
theorem mem_vars_iff_of_joinedOn (h : f.Spans g) {before s : NodeBatches}
    (hbefore : ∀ n ∈ g, (before.batch n).head.vars = n.vertices) {done : List Hyperedge}
    (hs : ∀ n ∈ done, n ∈ g ∧ f.Joined before s n ∧ ∀ c ∈ f.children n, c ∈ done)
    {n : Hyperedge} (hn : n ∈ done) (v : String) :
    v ∈ (s.batch n).head.vars ↔ ∃ m ∈ g, f.Under m n ∧ v ∈ m.vertices := by
  constructor
  · refine h.induction_up (P := fun n => n ∈ done → v ∈ (s.batch n).head.vars →
      ∃ m ∈ g, f.Under m n ∧ v ∈ m.vertices) (fun n hng ih hn hv => ?_) (hs n hn).1 hn
    obtain ⟨-, hjoined, hchildren⟩ := hs n hn
    rcases (hjoined.mem_vars_iff v).mp hv with hv | ⟨c, hc, hv⟩
    · rw [hbefore n hng] at hv
      exact ⟨n, hng, Relation.ReflTransGen.refl, hv⟩
    · obtain ⟨m, hm, hpath, hv⟩ := ih c hc (hchildren c hc) hv
      have hlink := (h.mem_children_iff hng).mp hc
      refine ⟨m, hm, hpath.tail ?_, hv⟩
      exact (h.parent?_eq_some_iff (h.mem_of_link hlink).1).mpr hlink
  · rintro ⟨m, hm, hpath, hv⟩
    rw [h.under_iff hm] at hpath
    induction hpath with
    | refl =>
        rw [(hs m hn).2.1.mem_vars_iff, hbefore m hm]
        exact Or.inl hv
    | tail _ hlink ih =>
        obtain ⟨hp, hjoined, hchildren⟩ := hs _ hn
        have hchild := (h.mem_children_iff hp).mpr hlink
        rw [hjoined.mem_vars_iff]
        exact Or.inr ⟨_, hchild, ih (hchildren _ hchild)⟩

/-- A row of a joined node has rows of all the nodes under it in it. -/
theorem weight_pos_of_joinedOn (h : f.Spans g) {before s : NodeBatches} {done : List Hyperedge}
    (hs : ∀ n ∈ done, n ∈ g ∧ f.Joined before s n ∧ ∀ c ∈ f.children n, c ∈ done)
    {m n : Hyperedge} (hn : n ∈ done) (hpath : Relation.ReflTransGen f.Link m n)
    {σ : Assignment} (hσ : 0 < (s.batch n).weight σ) : 0 < (before.batch m).weight σ := by
  induction hpath with
  | refl =>
      rw [(hs m hn).2.1.weight_eq] at hσ
      exact Nat.pos_of_mul_pos_right hσ
  | tail _ hlink ih =>
      obtain ⟨hp, hjoined, hchildren⟩ := hs _ hn
      have hchild := (h.mem_children_iff hp).mpr hlink
      rw [hjoined.weight_eq] at hσ
      exact ih (hchildren _ hchild) (pos_of_prod_map_pos (Nat.pos_of_mul_pos_left hσ) hchild)

/-- When all nodes are joined, the children of each are. -/
theorem joined_closed (h : f.Spans g) {before s : NodeBatches}
    (hs : ∀ n ∈ g, f.Joined before s n) :
    ∀ n ∈ g, n ∈ g ∧ f.Joined before s n ∧ ∀ c ∈ f.children n, c ∈ g :=
  fun n hn => ⟨hn, hs n hn, fun _ hc => h.mem_of_mem_children hn hc⟩

theorem exists_root_of_mem_vertices (h : f.Spans g) {before s : NodeBatches}
    (hbefore : ∀ n ∈ g, (before.batch n).head.vars = n.vertices)
    (hs : ∀ n ∈ g, f.Joined before s n) (v : String) :
    (∃ r ∈ f.roots, v ∈ (s.batch r).head.vars) ↔ ∃ n ∈ g, v ∈ n.vertices := by
  constructor
  · rintro ⟨r, hr, hv⟩
    obtain ⟨n, hn, -, hv⟩ :=
      (h.mem_vars_iff_of_joinedOn hbefore (h.joined_closed hs) (h.mem_roots_iff.mp hr).1 v).mp hv
    exact ⟨n, hn, hv⟩
  · rintro ⟨n, hn, hv⟩
    obtain ⟨r, hr, hpath⟩ := h.exists_root hn
    refine ⟨r, hr, ?_⟩
    exact (h.mem_vars_iff_of_joinedOn hbefore (h.joined_closed hs) (h.mem_roots_iff.mp hr).1 v).mpr
      ⟨n, hn, (h.under_iff hn).mpr hpath, hv⟩

/-- The batches at different roots have no variable in common. -/
theorem disjoint_roots (h : f.Spans g) {before s : NodeBatches}
    (hbefore : ∀ n ∈ g, (before.batch n).head.vars = n.vertices)
    (hs : ∀ n ∈ g, f.Joined before s n) :
    (f.roots.map s.batch).Pairwise fun b c => ∀ v ∈ b.head.vars, v ∉ c.head.vars := by
  have hnodup : f.roots.Nodup := h.nodup_nodes.filter _
  rw [List.pairwise_map]
  refine hnodup.imp_of_mem fun {r r'} hr hr' hne v hv hv' => hne ?_
  obtain ⟨m, hm, hmr, hvm⟩ :=
    (h.mem_vars_iff_of_joinedOn hbefore (h.joined_closed hs) (h.mem_roots_iff.mp hr).1 v).mp hv
  obtain ⟨n, hn, hnr, hvn⟩ :=
    (h.mem_vars_iff_of_joinedOn hbefore (h.joined_closed hs) (h.mem_roots_iff.mp hr').1 v).mp hv'
  exact h.root_eq_of_shared hm hn hr hr' hmr hnr hvm hvn

end Spans

/-- Products of batches without common variables multiply weights. -/
theorem foldl_product {b : Batch} {bs : List Batch} (hclean : ∀ c ∈ b :: bs, c.Clean)
    (hdisjoint : (b :: bs).Pairwise fun c d => ∀ v ∈ c.head.vars, v ∉ d.head.vars) :
    (bs.foldl Batch.product b).Clean ∧
      (∀ v, v ∈ (bs.foldl Batch.product b).head.vars ↔ ∃ c ∈ b :: bs, v ∈ c.head.vars) ∧
      ∀ σ, (bs.foldl Batch.product b).weight σ = ((b :: bs).map fun c => c.weight σ).prod := by
  induction bs generalizing b with
  | nil => exact ⟨hclean b (by simp), by simp, by simp⟩
  | cons c bs ih =>
      have hb : b.Clean := hclean b (by simp)
      have hc : c.Clean := hclean c (by simp)
      obtain ⟨hbs, htail⟩ := List.pairwise_cons.mp hdisjoint
      have hproduct : (b.product c).Clean := hb.product hc (hbs c (by simp))
      have hvars : ∀ v, v ∈ (b.product c).head.vars ↔ v ∈ b.head.vars ∨ v ∈ c.head.vars :=
        fun v => List.mem_append
      have hpairwise : (b.product c :: bs).Pairwise fun c d => ∀ v ∈ c.head.vars,
          v ∉ d.head.vars := by
        obtain ⟨hcs, hrest⟩ := List.pairwise_cons.mp htail
        refine List.pairwise_cons.mpr ⟨fun d hd v hv => ?_, hrest⟩
        rcases (hvars v).mp hv with hv | hv
        · exact hbs d (by simp [hd]) v hv
        · exact hcs d hd v hv
      have hall : ∀ d ∈ b.product c :: bs, d.Clean := by
        intro d hd
        rcases List.mem_cons.mp hd with rfl | hd
        · exact hproduct
        · exact hclean d (by simp [hd])
      obtain ⟨hfold, hmem, hweight⟩ := ih hall hpairwise
      rw [List.foldl_cons]
      refine ⟨hfold, fun v => ?_, fun σ => ?_⟩
      · rw [hmem]
        simp only [List.mem_cons, exists_eq_or_imp, hvars, or_assoc]
      · rw [hweight]
        simp only [List.map_cons, List.prod_cons, Batch.weight_product hb, Nat.mul_assoc]

/-- The roots are combined to a clean batch over all variables, and assignments
have there the product of what they had at the nodes. -/
theorem Spans.combine_eq {f : Forest} {g : Hypergraph} (h : f.Spans g) {before s : NodeBatches}
    (hbefore : ∀ n ∈ g, (before.batch n).head.vars = n.vertices)
    (hs : ∀ n ∈ g, f.Joined before s n) :
    ∃ c, f.combine s = .ok c ∧ c.Clean ∧ (∀ v, v ∈ c.head.vars ↔ ∃ n ∈ g, v ∈ n.vertices) ∧
      ∀ σ, c.weight σ = (g.map fun n => (before.batch n).weight σ).prod := by
  have hroots : ∀ r ∈ f.roots, r ∈ g := fun r hr => (h.mem_roots_iff.mp hr).1
  have hget : f.roots.mapM s.get = .ok (f.roots.map s.batch) :=
    mapM_eq_ok fun r hr => NodeBatches.get_eq (hs r (hroots r hr)).has
  have hclean : ∀ b ∈ f.roots.map s.batch, b.Clean := by
    intro b hb
    obtain ⟨r, hr, rfl⟩ := List.mem_map.mp hb
    exact (hs r (hroots r hr)).clean
  have hvars : ∀ v, (∃ b ∈ f.roots.map s.batch, v ∈ b.head.vars) ↔ ∃ n ∈ g, v ∈ n.vertices := by
    intro v
    rw [← h.exists_root_of_mem_vertices hbefore hs v]
    simp only [List.mem_map, exists_exists_and_eq_and]
  have hprod : ∀ σ, ((f.roots.map s.batch).map fun b => b.weight σ).prod =
      (g.map fun n => (before.batch n).weight σ).prod := by
    intro σ
    rw [List.map_map]
    exact h.prod_roots fun n hn => (hs n hn).weight_eq σ
  have hdisjoint := h.disjoint_roots hbefore hs
  rw [combine, hget]
  generalize f.roots.map s.batch = batches at hclean hvars hprod hdisjoint
  cases batches with
  | nil =>
      refine ⟨⟨Head.ofVars [], [[]]⟩, rfl, Batch.clean_unit, fun v => ?_, fun σ => ?_⟩
      · rw [← hvars]
        simp [Head.ofVars]
      · rw [← hprod]
        rfl
  | cons b bs =>
      obtain ⟨hfold, hmem, hweight⟩ := foldl_product hclean hdisjoint
      exact ⟨_, rfl, hfold, fun v => (hmem v).trans (hvars v), fun σ => (hweight σ).trans (hprod σ)⟩

end Forest

end Conjunctive
