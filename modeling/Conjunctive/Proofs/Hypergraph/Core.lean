import Conjunctive.Proofs.Hypergraph.Acyclicity
import Mathlib.Data.Set.Card
import Mathlib.Order.Minimal

/-!
# The cyclic core

Which hyperedges the elimination leaves depends on the order of the atoms: of
two that differ only in variables of their own, either may stay. What they
share does not depend on it. Where no ear is left, the shared variables are the
largest tangle, and the parts of the hyperedges inside it are the largest parts
that there ever were; and neither the tangles nor the largest parts inside one
change when an ear is removed. So the core, which is what the hyperedges left
share with each other, is the same for every order, and so is their number.
-/

namespace Conjunctive

variable {α : Type*}

/-! ### The largest tangle -/

/-- Each variable of a tangle is in two hyperedges. -/
theorem IsTangle.subset_sharedIn {E : Set (Set α)} {Y : Set α} (h : IsTangle E Y) :
    Y ⊆ sharedIn E := by
  intro y hy
  obtain ⟨e, he, hye⟩ := h.occurs y hy
  obtain ⟨f, hf, hyf, hsub⟩ := h.uncovered y hy e he
  refine ⟨e, he, f, hf, ?_, hye, hyf⟩
  rintro rfl
  exact hsub Set.inter_subset_left

/-- No set of some sets is an ear among the others. -/
def EarFree (E : Set (Set α)) : Prop := ∀ e ∈ E, ¬ IsEar e (E \ {e})

/-- Where no ear is left, only the tangles matter for what is shared. -/
theorem EarFree.sharedIn_eq {E F : Set (Set α)} (hE : EarFree E) (hF : EarFree F)
    (h : ∀ Y, IsTangle E Y ↔ IsTangle F Y) : sharedIn E = sharedIn F := by
  apply Set.Subset.antisymm
  · exact ((h _).mp (isTangle_sharedIn hE)).subset_sharedIn
  · exact ((h _).mpr (isTangle_sharedIn hF)).subset_sharedIn

/-! ### Traces -/

/-- The parts of some sets inside a set, as far as there is something inside it. -/
def traces (E : Set (Set α)) (Y : Set α) : Set (Set α) := {s | s.Nonempty ∧ ∃ e ∈ E, s = e ∩ Y}

/-- An ear has no trace in a tangle that its witness does not cover, so it adds no
maximal one. -/
theorem maximal_traces_insert_iff {E : Set (Set α)} {Y e : Set α} (he : IsEar e E)
    (h : IsTangle (insert e E) Y) {s : Set α} :
    Maximal (· ∈ traces (insert e E) Y) s ↔ Maximal (· ∈ traces E Y) s := by
  apply maximal_iff_maximal_of_imp_of_forall
  · rintro t ⟨hne, f, hf, rfl⟩
    exact ⟨hne, f, Set.mem_insert_of_mem e hf, rfl⟩
  · rintro t ⟨hne, f, hf, rfl⟩
    rcases Set.mem_insert_iff.mp hf with rfl | hf
    · obtain ⟨y, hyf, hy⟩ := hne
      obtain ⟨w, hw, hyw, hcover⟩ := h.exists_cover he hy hyf
      exact ⟨w ∩ Y, Set.subset_inter hcover Set.inter_subset_right, ⟨y, hyw, hy⟩, w, hw, rfl⟩
    · exact ⟨f ∩ Y, le_rfl, hne, f, hf, rfl⟩

theorem EarFree.eq_of_trace_subset {E : Set (Set α)} (hE : EarFree E) {e f : Set α} (he : e ∈ E)
    (hf : f ∈ E) (h : e ∩ sharedIn E ⊆ f) : e = f := by
  by_contra hne
  refine hE e he (Or.inr ⟨f, ⟨hf, fun hfe => hne hfe.symm⟩, ?_⟩)
  rintro v hv ⟨g, ⟨hg, hge⟩, hvg⟩
  exact h ⟨hv, e, he, g, hg, hge, hv, hvg⟩

theorem EarFree.trace_nonempty {E : Set (Set α)} (hE : EarFree E) {e : Set α} (he : e ∈ E) :
    (e ∩ sharedIn E).Nonempty := by
  by_contra hempty
  refine hE e he (Or.inl ?_)
  rintro v hv f ⟨hf, hfe⟩ hvf
  exact hempty ⟨v, hv, e, he, f, hf, hfe, hv, hvf⟩

/-- Where no ear is left, every trace in the shared variables is maximal. -/
theorem EarFree.maximal_traces_iff {E : Set (Set α)} (hE : EarFree E) {s : Set α} :
    Maximal (· ∈ traces E (sharedIn E)) s ↔ s ∈ (· ∩ sharedIn E) '' E := by
  constructor
  · intro h
    obtain ⟨-, e, he, rfl⟩ := h.prop
    exact ⟨e, he, rfl⟩
  · rintro ⟨e, he, rfl⟩
    refine ⟨⟨hE.trace_nonempty he, e, he, rfl⟩, ?_⟩
    rintro t ⟨-, f, hf, rfl⟩ hsub
    rw [hE.eq_of_trace_subset he hf fun v hv => (hsub hv).1]

/-! ### What an elimination leaves -/

namespace Hypergraph

/-- What the hyperedges share with each other: each without the vertices that no
other hyperedge has. -/
def core (g : Hypergraph) : Set (Set String) :=
  {s | ∃ e ∈ g, s = {v | v ∈ e.vertices ∧ ∃ f ∈ others e g, v ∈ f.vertices}}

theorem core_eq_image {g : Hypergraph} (hg : g.Distinct) :
    g.core = (· ∩ sharedIn (edgeSets g)) '' edgeSets g := by
  have htrace : ∀ e ∈ g, {v | v ∈ e.vertices ∧ ∃ f ∈ others e g, v ∈ f.vertices} =
      e.vertexSet ∩ sharedIn (edgeSets g) := by
    intro e he
    ext v
    constructor
    · rintro ⟨hv, f, hf, hvf⟩
      obtain ⟨hf, hfe⟩ := (hg.mem_others_iff he).mp hf
      exact ⟨hv, _, ⟨e, he, rfl⟩, _, ⟨f, hf, rfl⟩,
        fun heq => hfe (hg.eq_of_vertexSet_eq hf he heq), hv, hvf⟩
    · rintro ⟨hv, _, ⟨f, hf, rfl⟩, _, ⟨f', hf', rfl⟩, hne, hvf, hvf'⟩
      refine ⟨hv, ?_⟩
      -- one of the two that share the variable is another hyperedge
      by_cases hfe : f = e
      · subst hfe
        exact ⟨f', (hg.mem_others_iff he).mpr ⟨hf', fun heq => hne (by rw [heq])⟩, hvf'⟩
      · exact ⟨f, (hg.mem_others_iff he).mpr ⟨hf, hfe⟩, hvf⟩
  ext s
  constructor
  · rintro ⟨e, he, rfl⟩
    exact ⟨e.vertexSet, ⟨e, he, rfl⟩, (htrace e he).symm⟩
  · rintro ⟨_, ⟨e, he, rfl⟩, rfl⟩
    exact ⟨e, he, (htrace e he).symm⟩

/-- A run of the elimination keeps the maximal traces in a tangle. -/
theorem Eliminates.maximal_traces_iff {rs : List Removal} {g left : Hypergraph} (hg : g.Distinct)
    (h : Eliminates rs g left) {Y : Set String} (hY : IsTangle (edgeSets g) Y) {s : Set String} :
    Maximal (· ∈ traces (edgeSets g) Y) s ↔ Maximal (· ∈ traces (edgeSets left) Y) s := by
  induction rs generalizing g with
  | nil => rw [show left = g from h]
  | cons r rs ih =>
      have hear := isEar_of_earWith h.2.1
      rw [edgeSets_eq_insert hg h.1] at hY ⊢
      rw [maximal_traces_insert_iff hear hY]
      exact ih (hg.sublist (others_sublist _ _)) h.2.2 (hY.of_insert hear)

theorem earFree_left {g : Hypergraph} (hg : g.Distinct) : EarFree (edgeSets g.eliminate.left) :=
  fun _ hs => not_isEar_left hg hs

/-- The core of what is left has the maximal traces of all the hyperedges. -/
theorem mem_core_left_iff {g : Hypergraph} (hg : g.Distinct) {s : Set String} :
    s ∈ core g.eliminate.left ↔
      Maximal (· ∈ traces (edgeSets g) (sharedIn (edgeSets g.eliminate.left))) s := by
  have hrun := eliminates_eliminate hg
  have hfree := earFree_left hg
  have htangle := (hrun.isTangle_iff hg).mpr (isTangle_sharedIn hfree)
  rw [core_eq_image (hg.sublist hrun.sublist), hrun.maximal_traces_iff hg htangle,
    hfree.maximal_traces_iff]

/-- Two hyperedges that are left share different things with the others. -/
theorem ncard_core_left {g : Hypergraph} (hg : g.Distinct) :
    (core g.eliminate.left).ncard = g.eliminate.left.length := by
  classical
  have hleft := hg.sublist (eliminates_eliminate hg).sublist
  have hinj : Set.InjOn (· ∩ sharedIn (edgeSets g.eliminate.left))
      (edgeSets g.eliminate.left) := by
    intro s hs t ht heq
    refine (earFree_left hg).eq_of_trace_subset hs ht fun v hv => ?_
    exact ((Set.ext_iff.mp heq v).mp hv).1
  have hinj' : Set.InjOn Hyperedge.vertexSet {e | e ∈ g.eliminate.left} :=
    fun e he f hf heq => hleft.eq_of_vertexSet_eq he hf heq
  rw [core_eq_image hleft, hinj.ncard_image, edgeSets, hinj'.ncard_image]
  have hset : {e | e ∈ g.eliminate.left} = (g.eliminate.left.toFinset : Set Hyperedge) := by
    ext e
    simp
  rw [hset, Set.ncard_coe_finset, List.toFinset_card_of_nodup hleft.nodup]

/-- The core does not depend on how the hyperedges are listed. -/
theorem core_left_congr {g h : Hypergraph} (hg : g.Distinct) (hh : h.Distinct)
    (heq : edgeSets g = edgeSets h) : core g.eliminate.left = core h.eliminate.left := by
  have hshared : sharedIn (edgeSets g.eliminate.left) = sharedIn (edgeSets h.eliminate.left) := by
    refine (earFree_left hg).sharedIn_eq (earFree_left hh) fun Y => ?_
    rw [← (eliminates_eliminate hg).isTangle_iff hg, heq,
      (eliminates_eliminate hh).isTangle_iff hh]
  ext s
  rw [mem_core_left_iff hg, mem_core_left_iff hh, hshared, heq]

end Hypergraph

namespace Query

open Conjunctive.Hypergraph

/-- Two queries have the same atoms up to the order of the atoms and of the terms
inside each atom. -/
def Rearranges (q q' : Query) : Prop :=
  ∃ as, q.body.Perm as ∧
    List.Forall₂ (fun a b => a.predicate = b.predicate ∧ a.terms.Perm b.terms) as q'.body

theorem Rearranges.variableSets_eq {q q' : Query} (h : q.Rearranges q') :
    q.variableSets = q'.variableSets := by
  obtain ⟨as, hperm, hterms⟩ := h
  have hsets : as.map Atom.variableSet = q'.body.map Atom.variableSet := by
    rw [← List.forall₂_eq_eq_eq, List.forall₂_map_left_iff, List.forall₂_map_right_iff]
    apply hterms.imp
    rintro a b ⟨-, hab⟩
    ext v
    change v ∈ a.vars ↔ v ∈ b.vars
    rw [Atom.mem_vars_iff, Atom.mem_vars_iff, hab.mem_iff]
  have hmem : ∀ s, (∃ a ∈ q.body, a.variableSet = s) ↔ ∃ a ∈ q'.body, a.variableSet = s := by
    intro s
    rw [← List.mem_map, ← List.mem_map, ← hsets, (hperm.map Atom.variableSet).mem_iff]
  ext s
  exact and_congr_right fun _ => hmem s

/-- The core of what the elimination leaves of a query does not depend on the
order of the atoms and of their terms, nor does the number of hyperedges left;
and the core is empty only if nothing is left. -/
theorem core_left_eq_of_rearranges {q q' : Query} (h : q.Rearranges q') :
    core (ofQuery q).eliminate.left = core (ofQuery q').eliminate.left ∧
      (ofQuery q).eliminate.left.length = (ofQuery q').eliminate.left.length ∧
      (q.isAcyclic = true ↔ core (ofQuery q).eliminate.left = ∅) := by
  have hq := (merges_ofQuery q).distinct
  have hq' := (merges_ofQuery q').distinct
  have hcore : core (ofQuery q).eliminate.left = core (ofQuery q').eliminate.left := by
    apply core_left_congr hq hq'
    rw [edgeSets_ofQuery, edgeSets_ofQuery, h.variableSets_eq]
  refine ⟨hcore, ?_, ?_⟩
  · rw [← ncard_core_left hq, ← ncard_core_left hq', hcore]
  · rw [isAcyclic, isSome_forest?_iff]
    constructor
    · intro hnil
      rw [hnil]
      simp [core]
    · intro hempty
      by_contra hne
      obtain ⟨e, he⟩ := List.exists_mem_of_ne_nil _ hne
      exact Set.eq_empty_iff_forall_notMem.mp hempty _ ⟨e, he, rfl⟩

/-- A triangle, one side of which comes with a variable of its own in two atoms. -/
def doubledTriangle : Query where
  head := Head.ofVars []
  body :=
    [.free "r" [.variable "x", .variable "y", .variable "u"],
      .free "s" [.variable "y", .variable "z"], .free "t" [.variable "z", .variable "x"],
      .free "r" [.variable "x", .variable "y", .variable "w"]]

/-- The same with atoms and terms in reverse. -/
def doubledTriangleReversed : Query where
  head := Head.ofVars []
  body :=
    [.free "r" [.variable "w", .variable "y", .variable "x"],
      .free "t" [.variable "x", .variable "z"], .free "s" [.variable "z", .variable "y"],
      .free "r" [.variable "u", .variable "y", .variable "x"]]

theorem rearranges_doubledTriangle : doubledTriangle.Rearranges doubledTriangleReversed := by
  refine ⟨doubledTriangle.body.reverse, (List.reverse_perm _).symm, ?_⟩
  simp only [doubledTriangle, doubledTriangleReversed, List.reverse_cons, List.reverse_nil,
    List.nil_append, List.cons_append, List.forall₂_cons, List.Forall₂.nil, and_true]
  exact ⟨⟨rfl, (List.reverse_perm _).symm⟩, ⟨rfl, (List.reverse_perm _).symm⟩,
    ⟨rfl, (List.reverse_perm _).symm⟩, rfl, (List.reverse_perm _).symm⟩

/-- Different hyperedges are left, with the same core. -/
theorem core_left_doubledTriangle :
    (ofQuery doubledTriangle).eliminate.left.map Hyperedge.vertices =
        [["y", "z"], ["z", "x"], ["x", "y", "w"]] ∧
      (ofQuery doubledTriangleReversed).eliminate.left.map Hyperedge.vertices =
        [["x", "z"], ["z", "y"], ["u", "y", "x"]] ∧
      core (ofQuery doubledTriangle).eliminate.left =
        core (ofQuery doubledTriangleReversed).eliminate.left ∧
      (ofQuery doubledTriangle).eliminate.left.length =
        (ofQuery doubledTriangleReversed).eliminate.left.length ∧
      (doubledTriangle.isAcyclic = true ↔ core (ofQuery doubledTriangle).eliminate.left = ∅) :=
  ⟨by cbv, by cbv, core_left_eq_of_rearranges rearranges_doubledTriangle⟩

end Query

end Conjunctive
