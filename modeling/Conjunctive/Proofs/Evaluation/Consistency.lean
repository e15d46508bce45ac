import Conjunctive.Proofs.Evaluation.Reduction
import Conjunctive.Proofs.Forest.Descent

/-!
# Reducing from above

After the reduction from below, each row of a parent has a partner in each
child. The reduction from above keeps this and, going down the links, makes
each row of a child have a partner in its parent (`Consistent`). Rows that have
partners along all links of their tree are parts of solutions: `exists_extension`
finds such a solution ear by ear, since an ear and its witness agree on all that
the ear shares with the nodes left. So what remains at a node are exactly the
rows that solutions of its tree need.
-/

namespace Conjunctive

open Row Conjunctive.Hypergraph

namespace Forest

/-- The rows of a parent have partners in its children, and those of the nodes done
in their parents, which are done too. -/
structure ConsistentOn (f : Forest) (g : Hypergraph) (done : List Hyperedge) (s : NodeBatches) :
    Prop where
  sifts : s.Sifts f g
  supported : ∀ n ∈ g, ∀ σ, 0 < (s.batch n).weight σ → f.Supported s n σ
  closed : ∀ c ∈ done, ∀ p, f.Link c p → p ∈ done
  meets : ∀ c ∈ done, ∀ p, f.Link c p → ∀ σ, 0 < (s.batch c).weight σ →
    (s.batch p).Meets c.vertices σ

/-- The rows at both ends of every link have partners at the other end. -/
structure Consistent (f : Forest) (g : Hypergraph) (s : NodeBatches) : Prop where
  sifts : s.Sifts f g
  supported : ∀ n ∈ g, ∀ σ, 0 < (s.batch n).weight σ → f.Supported s n σ
  meets : ∀ c p, f.Link c p → ∀ σ, 0 < (s.batch c).weight σ → (s.batch p).Meets c.vertices σ

/-- One step of the reduction from above. -/
def reduceLink (s : NodeBatches) (link : Hyperedge × Hyperedge) :
    Except EvaluationError NodeBatches := do
  let child ← s.get link.2
  let parent ← s.get link.1
  let reduced ← liftBatch (child.semijoin parent)
  pure (s.set link.2 reduced)

open Classical in
/-- A child keeps the rows that have a partner in its parent. -/
theorem reduceLink_eq {s : NodeBatches} {c p : Hyperedge} (hc : s.Has c) (hp : s.Has p)
    (hchild : (s.batch c).Clean) (hparent : (s.batch p).Clean) :
    reduceLink s (p, c) = .ok (s.set c ⟨(s.batch c).head,
        (s.batch c).rows.filter ((s.batch p).hasPartner (s.batch c).head.vars)⟩) ∧
      ∀ σ, Batch.weight ⟨(s.batch c).head,
        (s.batch c).rows.filter ((s.batch p).hasPartner (s.batch c).head.vars)⟩ σ =
          if (s.batch p).Meets (s.batch c).head.vars σ then (s.batch c).weight σ else 0 := by
  constructor
  · rw [reduceLink, NodeBatches.get_eq hc, NodeBatches.get_eq hp]
    change (liftBatch ((s.batch c).semijoin (s.batch p)) >>= fun reduced =>
      pure (s.set c reduced)) = _
    rw [Batch.semijoin_eq hchild.regular hparent.regular]
    rfl
  · intro σ
    exact Batch.weight_filter fun r _ hσ => Batch.any_compatible_iff hparent hσ

namespace Spans

variable {f : Forest} {g : Hypergraph}

/-- Setting a node to a batch that sifts there. -/
theorem sifts_set (h : f.Spans g) {s : NodeBatches} (hs : s.Sifts f g) {c : Hyperedge} (hc : c ∈ g)
    {b : Batch} (hclean : b.Clean) (hvars : b.head.vars = c.vertices) (hincludes : c.Includes b)
    (hle : ∀ σ, b.weight σ ≤ c.own σ)
    (heq : ∀ r ∈ f.roots, Relation.ReflTransGen f.Link c r → ∀ σ, f.SolvesUnder g r σ →
      b.weight σ = c.own σ) :
    (s.set c b).Sifts f g where
  has := fun n hn => NodeBatches.has_set (hs.has n hn)
  clean := h.forall_batch_set (P := fun _ b => b.Clean) hs.clean hc hclean
  vars_eq := h.forall_batch_set (P := fun n b => b.head.vars = n.vertices) hs.vars_eq hc hvars
  includes := h.forall_batch_set (P := Hyperedge.Includes) hs.includes hc hincludes
  weight_le := h.forall_batch_set (P := fun n b => ∀ σ, b.weight σ ≤ n.own σ) hs.weight_le hc hle
  weight_eq := h.forall_batch_set (P := fun n b => ∀ r ∈ f.roots,
    Relation.ReflTransGen f.Link n r → ∀ σ, f.SolvesUnder g r σ → b.weight σ = n.own σ)
    hs.weight_eq hc heq

/-- Below a root, the path to it from a node goes by way of the parent. -/
theorem path_of_link (h : f.Spans g) {c p r : Hyperedge} (hlink : f.Link c p) (hr : r ∈ f.roots)
    (hpath : Relation.ReflTransGen f.Link c r) : Relation.ReflTransGen f.Link p r := by
  rcases hpath.cases_head with rfl | ⟨p', hlink', hrest⟩
  · exact absurd hlink ((h.mem_roots_iff.mp hr).2 p)
  · rwa [h.link_unique hlink hlink']

section Step

variable {done : List Hyperedge} {s : NodeBatches} {c p : Hyperedge} {b : Batch}

open Classical in
/-- A child that keeps the rows with a partner in its parent sifts as before: no row of
a solution is without one. -/
theorem sifts_step (h : f.Spans g) (hs : s.Sifts f g) (hlink : f.Link c p) (hclean : b.Clean)
    (hvars : b.head.vars = c.vertices) (hincludes : c.Includes b)
    (hweight : ∀ σ, b.weight σ =
      if (s.batch p).Meets c.vertices σ then (s.batch c).weight σ else 0) :
    (s.set c b).Sifts f g := by
  obtain ⟨hc, hp⟩ := h.mem_of_link hlink
  refine h.sifts_set hs hc hclean hvars hincludes ?_ ?_
  · intro σ
    rw [hweight]
    split_ifs
    · exact hs.weight_le c hc σ
    · exact Nat.zero_le _
  · intro r hr hpath σ hσ
    have hpr := h.path_of_link hlink hr hpath
    have hmeets : (s.batch p).Meets c.vertices σ := by
      refine Batch.meets_of_weight_pos ?_ _
      rw [hs.weight_eq p hp r hr hpr σ hσ]
      exact hσ p hp hpr
    rw [hweight, if_pos hmeets]
    exact hs.weight_eq c hc r hr hpath σ hσ

open Classical in
/-- What the child drops is no row's partner. -/
theorem supported_step (h : f.Spans g) (hs : s.Sifts f g)
    (hsupported : ∀ n ∈ g, ∀ σ, 0 < (s.batch n).weight σ → f.Supported s n σ)
    (hlink : f.Link c p)
    (hweight : ∀ σ, b.weight σ =
      if (s.batch p).Meets c.vertices σ then (s.batch c).weight σ else 0)
    (hvars : b.head.vars = c.vertices) {n : Hyperedge} (hn : n ∈ g) {σ : Assignment}
    (hσ : 0 < ((s.set c b).batch n).weight σ) : f.Supported (s.set c b) n σ := by
  obtain ⟨hc, hp⟩ := h.mem_of_link hlink
  have hself : (s.set c b).batch c = b := NodeBatches.batch_set_self s c b
  have hother : ∀ n ∈ g, n ≠ c → (s.set c b).batch n = s.batch n := fun n hn hnc =>
    NodeBatches.batch_set_of_ne (h.vertices_ne hn hc hnc)
  have hold : 0 < (s.batch n).weight σ := by
    by_cases hnc : n = c
    · rw [hnc, hself, hweight] at hσ
      split_ifs at hσ
      · exact hnc ▸ hσ
      · exact absurd hσ (lt_irrefl 0)
    · rwa [hother n hn hnc] at hσ
  intro d hd
  have hdlink := (h.mem_children_iff hn).mp hd
  obtain ⟨τ, hagree, hτ⟩ := hsupported n hn σ hold d hd
  by_cases hdc : d = c
  · -- the partner in the child has the row of the parent for a partner itself
    rw [hdc] at hdlink hagree hτ ⊢
    have hnp : n = p := h.link_unique hdlink hlink
    rw [hnp] at hold hagree ⊢
    rw [hs.vars_eq c hc] at hagree
    have hmeets : (s.batch p).Meets c.vertices τ := by
      refine ⟨σ, fun v hv hvp => ?_, hold⟩
      rw [hs.vars_eq p hp] at hvp
      exact (hagree v hvp hv).symm
    rw [hself]
    refine ⟨τ, fun v hv hvb => hagree v hv (hvars ▸ hvb), ?_⟩
    rwa [hweight, if_pos hmeets]
  · rw [hother d (h.mem_of_link hdlink).1 hdc]
    exact ⟨τ, hagree, hτ⟩

open Classical in
/-- What the child keeps has partners in its parent, and other links are left alone. -/
theorem meets_step (h : f.Spans g) (hs : f.ConsistentOn g done s) (hlink : f.Link c p)
    (hdone : p ∈ done) (hnew : c ∉ done)
    (hweight : ∀ σ, b.weight σ =
      if (s.batch p).Meets c.vertices σ then (s.batch c).weight σ else 0)
    {m q : Hyperedge} (hm : m ∈ done ++ [c]) (hmq : f.Link m q) {σ : Assignment}
    (hσ : 0 < ((s.set c b).batch m).weight σ) : ((s.set c b).batch q).Meets m.vertices σ := by
  obtain ⟨hc, hp⟩ := h.mem_of_link hlink
  have hother : ∀ n ∈ g, n ≠ c → (s.set c b).batch n = s.batch n := fun n hn hnc =>
    NodeBatches.batch_set_of_ne (h.vertices_ne hn hc hnc)
  rcases List.mem_append.mp hm with hm | hm
  · have hqc : q ≠ c := fun heq => hnew (heq ▸ hs.closed m hm q hmq)
    have hmc : m ≠ c := fun heq => hnew (heq ▸ hm)
    obtain ⟨hmg, hqg⟩ := h.mem_of_link hmq
    rw [hother m hmg hmc] at hσ
    rw [hother q hqg hqc]
    exact hs.meets m hm q hmq σ hσ
  · have hpc : p ≠ c := fun heq => hnew (heq ▸ hdone)
    rw [List.mem_singleton.mp hm] at hmq hσ ⊢
    rw [NodeBatches.batch_set_self, hweight] at hσ
    rw [h.link_unique hmq hlink, hother p hp hpc]
    by_contra hnot
    rw [if_neg hnot] at hσ
    exact lt_irrefl 0 hσ

/-- One step makes the lower end of its link consistent with the upper end, and
takes no partner away from a row that is left. -/
theorem consistentOn_step (h : f.Spans g) (hs : f.ConsistentOn g done s) (hlink : f.Link c p)
    (hdone : p ∈ done) (hnew : c ∉ done) :
    ∃ s', reduceLink s (p, c) = .ok s' ∧ f.ConsistentOn g (done ++ [c]) s' := by
  classical
  obtain ⟨hc, hp⟩ := h.mem_of_link hlink
  have hchild := hs.sifts.clean c hc
  have hvars := hs.sifts.vars_eq c hc
  obtain ⟨hrun, hweight⟩ := reduceLink_eq (hs.sifts.has c hc) (hs.sifts.has p hp) hchild
    (hs.sifts.clean p hp)
  simp only [hvars] at hrun hweight
  have hincludes := (hs.sifts.includes c hc).filter ((s.batch p).hasPartner c.vertices)
  have hclean := hchild.filter ((s.batch p).hasPartner c.vertices)
  refine ⟨_, hrun, h.sifts_step hs.sifts hlink hclean hvars hincludes hweight, ?_, ?_, ?_⟩
  · intro n hn σ hσ
    exact h.supported_step hs.sifts hs.supported hlink hweight hvars hn hσ
  · intro m hm q hmq
    rcases List.mem_append.mp hm with hm | hm
    · exact List.mem_append_left _ (hs.closed m hm q hmq)
    · rw [List.mem_singleton.mp hm] at hmq
      exact List.mem_append_left _ (h.link_unique hmq hlink ▸ hdone)
  · intro m hm q hmq σ hσ
    exact h.meets_step hs hlink hdone hnew hweight hm hmq hσ

end Step

/-- The reduction from above makes all links consistent. -/
theorem reduceDown_eq (h : f.Spans g) {s : NodeBatches} (hs : ∀ n ∈ g, f.Reduced s n) :
    ∃ s', f.reduceDown s = .ok s' ∧ f.Consistent g s' := by
  obtain ⟨hdescends, hall⟩ := h.descends_topDown
  have hstart : f.ConsistentOn g f.roots s := by
    have hroot : ∀ c ∈ f.roots, ∀ p, ¬ f.Link c p := fun c hc => (h.mem_roots_iff.mp hc).2
    refine ⟨h.sifts_of_reduced hs, fun n hn σ hσ => ?_, ?_, ?_⟩
    · by_contra hnot
      rw [(hs n hn).weight_eq, if_neg hnot] at hσ
      exact lt_irrefl 0 hσ
    · intro c hc p hlink
      exact absurd hlink (hroot c hc p)
    · intro c hc p hlink
      exact absurd hlink (hroot c hc p)
  obtain ⟨s', hrun, hs'⟩ : ∃ s', f.topDown.foldlM reduceLink s = .ok s' ∧
      f.ConsistentOn g (f.roots ++ f.topDown.map Prod.snd) s' :=
    hdescends.foldlM (fun _ _ _ hs hlink hdone hnew => h.consistentOn_step hs hlink hdone hnew)
      hstart
  refine ⟨s', hrun, hs'.sifts, hs'.supported, fun c p hlink => ?_⟩
  exact hs'.meets c ((hall c).mpr (h.mem_of_link hlink).1) p hlink

end Spans

end Forest

/-! ### Rows as parts of solutions -/

namespace Hypergraph

variable {rs : List Removal} {g : Hypergraph} {s : NodeBatches} {T : Set Hyperedge}

/-- Rows have partners at both ends of all links, and a set of nodes is a single tree:
links do not leave it, and it has at most one root. -/
structure PartnersOn (rs : List Removal) (g : Hypergraph) (s : NodeBatches) (T : Set Hyperedge) :
    Prop where
  vars_eq : ∀ n ∈ g, (s.batch n).head.vars = n.vertices
  down : ∀ c p, ⟨c, some p⟩ ∈ rs → ∀ σ, 0 < (s.batch p).weight σ → (s.batch c).Meets p.vertices σ
  up : ∀ c p, ⟨c, some p⟩ ∈ rs → ∀ σ, 0 < (s.batch c).weight σ → (s.batch p).Meets c.vertices σ
  mem_iff : ∀ c p, ⟨c, some p⟩ ∈ rs → (c ∈ T ↔ p ∈ T)
  root_unique : ∀ c c', ⟨c, none⟩ ∈ rs → ⟨c', none⟩ ∈ rs → c ∈ T → c' ∈ T → c = c'

theorem PartnersOn.tail {r : Removal} (h : PartnersOn (r :: rs) g s T) :
    PartnersOn rs (others r.ear g) s T where
  vars_eq := fun n hn => h.vars_eq n (mem_others.mp hn).1
  down := fun c p hcp => h.down c p (List.mem_cons_of_mem r hcp)
  up := fun c p hcp => h.up c p (List.mem_cons_of_mem r hcp)
  mem_iff := fun c p hcp => h.mem_iff c p (List.mem_cons_of_mem r hcp)
  root_unique := fun c c' hc hc' =>
    h.root_unique c c' (List.mem_cons_of_mem r hc) (List.mem_cons_of_mem r hc')

/-- When the root of the tree is removed, no node of the tree is left. -/
theorem Eliminates.notMem_of_root {c : Hyperedge} (hg : g.Distinct)
    (h : Eliminates (⟨c, none⟩ :: rs) g []) (hs : PartnersOn (⟨c, none⟩ :: rs) g s T)
    (hcT : c ∈ T) {m : Hyperedge} (hm : m ∈ others c g) : m ∉ T := by
  have hspans : (Forest.mk rs).Spans (others c g) := ⟨hg.sublist (others_sublist c g), h.2.2⟩
  intro hmT
  obtain ⟨r, hr, hpath⟩ := hspans.exists_root hm
  have hrT : r ∈ T := by
    clear hr
    induction hpath with
    | refl => exact hmT
    | tail _ hlink ih => exact (hs.tail.mem_iff _ _ hlink).mp ih
  obtain ⟨hrg, hnolink⟩ := hspans.mem_roots_iff.mp hr
  obtain ⟨⟨r', w⟩, hmem, rfl⟩ := hspans.mem_iff_ear.mp hrg
  cases w with
  | none =>
      have heq := hs.root_unique c r' (by simp) (List.mem_cons_of_mem _ hmem) hcT hrT
      exact (mem_others.mp hrg).2 (by rw [heq])
  | some p => exact hnolink p hmem

/-- If rows have partners at both ends of links, then a row of some node of a tree goes
together with rows of all the nodes of the tree. -/
theorem Eliminates.exists_extension (hg : g.Distinct) (h : Eliminates rs g [])
    (hs : PartnersOn rs g s T) {n : Hyperedge} (hn : n ∈ g) (hnT : n ∈ T) {σ : Assignment}
    (hσ : 0 < (s.batch n).weight σ) :
    ∃ ρ : Assignment, (∀ v ∈ n.vertices, ρ v = σ v) ∧
      ∀ m ∈ g, m ∈ T → 0 < (s.batch m).weight ρ := by
  induction rs generalizing g n σ with
  | nil =>
      cases h
      cases hn
  | cons r rs ih =>
      obtain ⟨c, w⟩ := r
      have hrun := h
      obtain ⟨hc, hw, hrest⟩ := h
      have hother : ∀ m ∈ g, m ≠ c → m ∈ others c g :=
        fun m hm hmc => (hg.mem_others_iff hc).mpr ⟨hm, hmc⟩
      have hleft : ∀ n ∈ others c g, n ∈ T → ∀ σ, 0 < (s.batch n).weight σ →
          ∃ ρ : Assignment, (∀ v ∈ n.vertices, ρ v = σ v) ∧
            ∀ m ∈ others c g, m ∈ T → 0 < (s.batch m).weight ρ :=
        fun n hn hnT σ hσ => ih (hg.sublist (others_sublist c g)) hrest hs.tail hn hnT hσ
      by_cases hcT : c ∈ T
      · cases w with
        | none =>
            -- the ear is all of the tree that was left
            have hall : ∀ m ∈ g, m ∈ T → m = c := by
              intro m hm hmT
              by_contra hmc
              exact hrun.notMem_of_root hg hs hcT (hother m hm hmc) hmT
            refine ⟨σ, fun _ _ => rfl, fun m hm hmT => ?_⟩
            rw [hall n hn hnT] at hσ
            rwa [hall m hm hmT]
        | some p =>
            have hpc := (hs.mem_iff c p (by simp)).mp hcT
            have hcvars := hs.vars_eq c hc
            have hpvars := hs.vars_eq p (mem_others.mp hw.1).1
            have hshared : ∀ {ρ τ : Assignment}, (∀ v ∈ c.vertices, v ∈ p.vertices → ρ v = τ v) →
                ∀ m ∈ others c g, ∀ v ∈ m.vertices, v ∈ c.vertices → ρ v = τ v :=
              fun hagree m hm v hvm hvc => hagree v hvc (hw.2 v hvc ⟨m, hm, hvm⟩)
            by_cases hnc : n = c
            · rw [hnc] at hσ ⊢
              obtain ⟨τ, hagree, hτ⟩ := hs.up c p (by simp) σ hσ
              rw [hpvars] at hagree
              obtain ⟨ρ, hρp, hρ⟩ := hleft p hw.1 hpc τ hτ
              obtain ⟨ρ', hear, -, hall⟩ := exists_glued hg hs.vars_eq hc hσ hρ
                (hshared fun v hv hvp => (hρp v hvp).trans (hagree v hv hvp).symm)
              exact ⟨ρ', hear, hall⟩
            · obtain ⟨ρ, hρn, hρ⟩ := hleft n (hother n hn hnc) hnT σ hσ
              obtain ⟨τ, hagree, hτ⟩ := hs.down c p (by simp) ρ (hρ p hw.1 hpc)
              rw [hcvars] at hagree
              obtain ⟨ρ', -, hkept, hall⟩ := exists_glued hg hs.vars_eq hc hτ hρ
                (hshared fun v hv hvp => hagree v hvp hv)
              exact ⟨ρ', fun v hv => (hkept n (hother n hn hnc) v hv).trans (hρn v hv), hall⟩
      · have hne : ∀ m, m ∈ T → m ≠ c := by
          rintro m hmT rfl
          exact hcT hmT
        obtain ⟨ρ, hρn, hρ⟩ := hleft n (hother n hn (hne n hnT)) hnT σ hσ
        exact ⟨ρ, hρn, fun m hm hmT => hρ m (hother m hm (hne m hmT)) hmT⟩

end Hypergraph

namespace Forest.Spans

variable {f : Forest} {g : Hypergraph}

/-- Where all links are consistent, a row of a node is part of a solution of its tree. -/
theorem exists_solution (h : f.Spans g) {s : NodeBatches} (hs : f.Consistent g s)
    {n r : Hyperedge} (hn : n ∈ g) (hr : r ∈ f.roots)
    (hpath : Relation.ReflTransGen f.Link n r) {σ : Assignment} (hσ : 0 < (s.batch n).weight σ) :
    ∃ ρ : Assignment, (∀ v ∈ n.vertices, ρ v = σ v) ∧
      ∀ m ∈ g, Relation.ReflTransGen f.Link m r → 0 < (s.batch m).weight ρ := by
  refine h.eliminates.exists_extension (T := {m | Relation.ReflTransGen f.Link m r})
    h.distinct ⟨hs.sifts.vars_eq, ?_, hs.meets, ?_, ?_⟩ hn hpath hσ
  · intro c p hlink σ hσ
    have hp := (h.mem_of_link hlink).2
    exact hs.supported p hp σ hσ c ((h.mem_children_iff hp).mpr hlink)
  · intro c p hlink
    exact ⟨h.path_of_link hlink hr, fun hpr => hpr.head hlink⟩
  · intro c c' hc hc' hcr hcr'
    have hmem : ∀ c, ⟨c, none⟩ ∈ f.removals → c ∈ f.roots := by
      intro c hc
      refine h.mem_roots_iff.mpr ⟨h.mem_iff_ear.mpr ⟨_, hc, rfl⟩, fun p hlink => ?_⟩
      cases h.eliminates.eq_of_ear_eq h.distinct hc hlink rfl
    rw [h.root_unique (hmem c hc) hr .refl hcr, h.root_unique (hmem c' hc') hr .refl hcr']

open Classical in
/-- After both reductions, an assignment has its own weight at a node if it is part
of a solution of the tree, and no weight otherwise. -/
theorem weight_eq_of_consistent (h : f.Spans g) (hg : g.Loaded) {s : NodeBatches}
    (hs : f.Consistent g s) {n r : Hyperedge} (hn : n ∈ g) (hr : r ∈ f.roots)
    (hpath : Relation.ReflTransGen f.Link n r) (σ : Assignment) :
    (s.batch n).weight σ =
      if ∃ ρ, f.SolvesUnder g r ρ ∧ ∀ v ∈ n.vertices, ρ v = σ v then n.own σ else 0 := by
  have hvars := hs.sifts.vars_eq n hn
  split_ifs with hpart
  · obtain ⟨ρ, hρ, hagree⟩ := hpart
    rw [← Batch.weight_congr (σ := ρ) fun v hv => hagree v (hvars ▸ hv),
      hs.sifts.weight_eq n hn r hr hpath ρ hρ]
    exact hg.own_congr hn hagree
  · by_contra hpos
    obtain ⟨ρ, hagree, hall⟩ := h.exists_solution hs hn hr hpath (Nat.pos_of_ne_zero hpos)
    exact hpart ⟨ρ, fun m hm hmr => (hall m hm hmr).trans_le (hs.sifts.weight_le m hm ρ), hagree⟩

end Forest.Spans

end Conjunctive
