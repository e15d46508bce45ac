import Conjunctive.Proofs.Forest.Links
import Conjunctive.Proofs.Forest.Register

/-!
# Forests are built in a register

The links of a forest are read off the removals of an elimination. A register in which the
removals are entered one by one, each ear being listed and made a child of its witness,
comes to have the same nodes and the same links (`Register.Draws`), and the same roots once
they are set. A removal finds its ear without a parent and its witness not below the ear,
since neither of them has been removed before.
-/

namespace Conjunctive

open Conjunctive.Hypergraph

namespace Forest

variable {rs : List Removal} {m : Removal}

theorem nodes_concat : nodes ⟨rs ++ [m]⟩ = m.witness.toList.foldl addNode
    (addNode (nodes ⟨rs⟩) m.ear) := by
  simp [nodes]

theorem children_concat (n : Hyperedge) : children ⟨rs ++ [m]⟩ n = children ⟨rs⟩ n ++
    if m.witness.any fun w => w.vertices == n.vertices then [m.ear] else [] := by
  rw [children, children, List.filter_append, List.map_append, List.filter_singleton]
  cases m.witness.any fun w => w.vertices == n.vertices <;> rfl

/-- An ear that has not been removed before gets its witness as parent. -/
theorem parent?_concat (hears : ∀ s ∈ rs, s.ear.vertices ≠ m.ear.vertices) (n : Hyperedge) :
    parent? ⟨rs ++ [m]⟩ n =
      if n.vertices = m.ear.vertices then m.witness else parent? ⟨rs⟩ n := by
  rw [parent?, parent?, List.find?_append, List.find?_singleton]
  split_ifs with hm hn hn
  · rw [List.find?_eq_none.mpr fun s hs => by simpa [hn] using hears s hs]
    rfl
  · exact absurd (beq_iff_eq.mp hm).symm hn
  · exact absurd (beq_iff_eq.mpr hn.symm) hm
  · rw [Option.or_none]

variable {g left : Hypergraph} {e : Hyperedge}

/-- A hyperedge that no removal has named has no children. -/
theorem children_eq_nil (hg : g.Distinct) (h : Eliminates rs g left) (he : e ∈ g)
    (hnot : e ∉ nodes ⟨rs⟩) : children ⟨rs⟩ e = [] := by
  rw [children, List.map_eq_nil_iff, List.filter_eq_nil_iff]
  rintro ⟨c, w⟩ hr hw
  rw [Option.any_eq_true] at hw
  obtain ⟨w, rfl, hwe⟩ := hw
  obtain rfl := hg.eq_of_vertices_eq (h.mem_of_witness hr).2 he (beq_iff_eq.mp hwe)
  exact hnot ((mem_nodes_iff hg h).mpr (List.mem_flatMap.mpr ⟨_, hr, by simp⟩))

/-- A hyperedge that is left has no parent. -/
theorem parent?_eq_none (h : Eliminates rs g left) (he : e ∈ left) : parent? ⟨rs⟩ e = none := by
  rw [parent?, List.find?_eq_none.mpr fun s hs => by simpa using h.ear_ne hs he]
  rfl

end Forest

namespace Register

/-- The hyperedge of the node with a number. -/
def edge (r : Register) (i : Nat) : Hyperedge := (r.node i).edge

/-- Enter a removal: list the ear, and list the witness and make the ear its last child. -/
def enter (r : Register) (m : Removal) : Register :=
  let (r, child) := r.getOrMake m.ear.vertices m.ear.atoms
  match m.witness with
  | none => r
  | some w =>
    let (r, parent) := r.getOrMake w.vertices w.atoms
    r.addChild parent child

/-- The register that removals build. -/
def ofRemovals (rs : List Removal) : Register := (rs.foldl enter empty).setRoots

/-- The listed nodes of a register are given ones, with the links of a forest. -/
structure Draws (r : Register) (ns : List Hyperedge) (f : Forest) : Prop where
  consistent : r.Consistent
  nodes_eq : r.members.map r.edge = ns
  children_eq : ∀ i ∈ r.members, (r.node i).children.map r.edge = f.children (r.edge i)
  parent_eq : ∀ i ∈ r.members, (r.node i).parent.map r.edge = f.parent? (r.edge i)

/-- A set of names that no listed node has gets a node without links. -/
theorem Keyed.exists_getOrMake {r : Register} (h : r.Keyed) {vertices : List String}
    (atoms : List Atom)
    (hnot : ∀ i ∈ r.members, ¬ ∀ v, v ∈ (r.node i).edge.vertices ↔ v ∈ vertices) :
    ∃ r', r.getOrMake vertices atoms = (r', r.nodes.length) ∧
      r'.members = r.members ++ [r.nodes.length] ∧
      r'.node r.nodes.length = ⟨⟨vertices.eraseDups, atoms⟩, [], none⟩ ∧
      ∀ j ∈ r.members, r'.node j = r.node j := by
  refine ⟨_, h.getOrMake_of_forall_not hnot, ?_, node_make_self r vertices atoms,
    fun j hj => node_make vertices atoms (h.made j hj)⟩
  rw [members, List.map_append]
  rfl

namespace Draws

variable {r : Register} {ns : List Hyperedge} {rs : List Removal} {f : Forest} {g : Hypergraph}
  {left : Hypergraph} {e : Hyperedge} {p c : Nat}

/-- A hyperedge that is not listed has other variables than those that are. -/
theorem not_same_vertices (hg : g.Distinct) (h : r.Draws ns f) (hns : ∀ n ∈ ns, n ∈ g) (he : e ∈ g)
    (hnot : e ∉ ns) :
    ∀ i ∈ r.members, ¬ ∀ v, v ∈ (r.node i).edge.vertices ↔ v ∈ e.vertices := by
  intro i hi hvertices
  have hin : r.edge i ∈ ns := h.nodes_eq ▸ List.mem_map_of_mem hi
  exact hnot (hg.eq_of_vertexSet_eq (hns _ hin) he (Set.ext hvertices) ▸ hin)

/-- A hyperedge without links that is not listed is listed at the end. -/
theorem make (h : r.Draws ns f) (hnodup : e.vertices.Nodup)
    (hnew : ∀ i ∈ r.members, ¬ ∀ v, v ∈ (r.node i).edge.vertices ↔ v ∈ e.vertices)
    (hchildren : f.children e = []) (hparent : f.parent? e = none) :
    ∃ r' i, r.getOrMake e.vertices e.atoms = (r', i) ∧ r'.Draws (ns ++ [e]) f ∧
      i ∈ r'.members ∧ r'.edge i = e ∧ ∀ j ∈ r.members, j ∈ r'.members ∧ r'.node j = r.node j := by
  obtain ⟨r', hmake, hmembers, hlast, hold⟩ :=
    h.consistent.keyed.exists_getOrMake e.atoms hnew
  have hconsistent := h.consistent.getOrMake e.vertices e.atoms
  rw [hmake] at hconsistent
  have hedge : ∀ j ∈ r.members, r'.edge j = r.edge j := fun j hj =>
    congrArg Node.edge (hold j hj)
  have hedgeLast : r'.edge r.nodes.length = e := by
    rw [edge, hlast, eraseDups_eq_self_iff.mpr hnodup]
  refine ⟨r', r.nodes.length, hmake, ⟨hconsistent, ?_, fun i hi => ?_, fun i hi => ?_⟩,
    by simp [hmembers], hedgeLast, fun j hj => ⟨by simp [hmembers, hj], hold j hj⟩⟩
  · rw [hmembers, List.map_append, List.map_congr_left hedge, h.nodes_eq, List.map_singleton,
      hedgeLast]
  · rw [hmembers, List.mem_append, List.mem_singleton] at hi
    rcases hi with hi | rfl
    · rw [hold i hi, hedge i hi, ← h.children_eq i hi]
      exact List.map_congr_left fun c hc => hedge c (h.consistent.child_mem i hi c hc)
    · rw [hlast, hedgeLast, hchildren]
      rfl
  · rw [hmembers, List.mem_append, List.mem_singleton] at hi
    rcases hi with hi | rfl
    · rw [hold i hi, hedge i hi, ← h.parent_eq i hi]
      exact Option.map_congr fun p hp => hedge p (h.consistent.parent_mem i hi p hp)
    · rw [hlast, hedgeLast, hparent]
      rfl

/-- A hyperedge is listed unless it is, and what is listed stays as it is. -/
theorem getOrMake (hg : g.Distinct) (h : r.Draws ns f) (hns : ∀ n ∈ ns, n ∈ g) (he : e ∈ g)
    (hnodup : e.vertices.Nodup) (hchildren : e ∉ ns → f.children e = [])
    (hparent : e ∉ ns → f.parent? e = none) :
    ∃ r' i, r.getOrMake e.vertices e.atoms = (r', i) ∧ r'.Draws (Forest.addNode ns e) f ∧
      i ∈ r'.members ∧ r'.edge i = e ∧ ∀ j ∈ r.members, j ∈ r'.members ∧ r'.node j = r.node j := by
  by_cases hmem : e ∈ ns
  · rw [Forest.addNode_of_mem hmem]
    rw [← h.nodes_eq] at hmem
    obtain ⟨i, hi, rfl⟩ := List.mem_map.mp hmem
    refine ⟨r, i, ?_, h, hi, rfl, fun j hj => ⟨hj, rfl⟩⟩
    exact h.consistent.keyed.getOrMake_eq_iff.mpr ⟨hi, fun _ => Iff.rfl⟩
  · rw [Forest.addNode_of_notMem hg hns he hmem]
    exact h.make hnodup (h.not_same_vertices hg hns he hmem) (hchildren hmem) (hparent hmem)

/-- An ear without a witness leaves the links as they are. -/
theorem addRoot (h : r.Draws ns ⟨rs⟩) (hears : ∀ s ∈ rs, s.ear.vertices ≠ e.vertices) :
    r.Draws ns ⟨rs ++ [⟨e, none⟩]⟩ := by
  refine ⟨h.consistent, h.nodes_eq, fun i hi => ?_, fun i hi => ?_⟩
  · rw [h.children_eq i hi, Forest.children_concat]
    exact (List.append_nil _).symm
  · rw [h.parent_eq i hi, Forest.parent?_concat hears]
    split_ifs with hi
    · rw [Forest.parent?, List.find?_eq_none.mpr fun s hs => by simpa [hi] using hears s hs]
      rfl
    · rfl

/-- A node without a parent that is not above another one is made its last child. -/
theorem addChild (h : r.Draws ns ⟨rs⟩) (hp : p ∈ r.members) (hc : c ∈ r.members)
    (hears : ∀ s ∈ rs, s.ear.vertices ≠ (r.edge c).vertices)
    (hbelow : ¬ Relation.ReflTransGen r.HasChild c p) :
    (r.addChild p c).Draws ns ⟨rs ++ [⟨r.edge c, some (r.edge p)⟩]⟩ := by
  have hpm := h.consistent.made hp
  have hcm := h.consistent.made hc
  have hedge : (r.addChild p c).edge = r.edge := by
    funext j
    rw [edge, Register.addChild, node_update (by rwa [length_update]), node_update hpm, edge]
    split_ifs <;> rfl
  have hsame : ∀ {i j : Nat}, i ∈ r.members → j ∈ r.members →
      ((r.edge i).vertices = (r.edge j).vertices ↔ i = j) := by
    intro i j hi hj
    exact ⟨fun hij => h.consistent.keyed.key_inj hi hj (congrArg canonicalKey hij),
      fun hij => hij ▸ rfl⟩
  have hparent : (r.node c).parent = none := by
    rw [← Option.map_eq_none_iff, h.parent_eq c hc, Forest.parent?,
      List.find?_eq_none.mpr fun s hs => by simpa using hears s hs]
    rfl
  refine ⟨h.consistent.addChild hp hc hparent hbelow, ?_, fun i hi => ?_, fun i hi => ?_⟩
  · rw [hedge]
    exact h.nodes_eq
  · rw [hedge, children_addChild hpm hcm, Forest.children_concat, ← h.children_eq i hi]
    simp only [Option.any_some, beq_iff_eq, hsame hp hi]
    by_cases hip : i = p
    · rw [if_pos hip, if_pos hip.symm, List.map_append, List.map_singleton]
    · rw [if_neg hip, if_neg (Ne.symm hip), List.append_nil]
  · rw [hedge, parent_addChild hpm hcm, Forest.parent?_concat hears, ← h.parent_eq i hi]
    simp only [hsame hi hc]
    split_ifs <;> rfl

/-- A node without a parent is under no other listed node. -/
theorem not_way (h : r.Draws ns f) (hc : c ∈ r.members) (hparent : f.parent? (r.edge p) = none)
    (hne : c ≠ p) : ¬ Relation.ReflTransGen r.HasChild c p := by
  intro hway
  have hp := h.consistent.mem_of_way hc hway
  rcases hway.cases_tail with heq | ⟨i, hci, hip⟩
  · exact hne heq.symm
  · have hpi := h.consistent.hasParent_of_hasChild (h.consistent.mem_of_way hc hci) hip
    have hmap := h.parent_eq p hp
    rw [hpi, hparent] at hmap
    cases hmap

/-- A register in which the next removal of a run is entered. -/
theorem enter (hg : g.Distinct) (hnodup : ∀ e ∈ g, e.vertices.Nodup) {m : Removal}
    (hrun : Eliminates (rs ++ [m]) g left) (h : r.Draws (Forest.nodes ⟨rs⟩) ⟨rs⟩) :
    (r.enter m).Draws (Forest.nodes ⟨rs ++ [m]⟩) ⟨rs ++ [m]⟩ := by
  obtain ⟨e, w⟩ := m
  obtain ⟨g', hrs, hear, hwitness, -⟩ := hrun.of_append
  have hsub : ∀ n ∈ g', n ∈ g := fun n hn => hrs.sublist.subset hn
  have hnodes : ∀ n ∈ Forest.nodes ⟨rs⟩, n ∈ g := fun n hn =>
    hrs.mem_of_mem_flatMap ((Forest.mem_nodes_iff hg hrs).mp hn)
  have heg : e ∈ g := hsub e hear
  obtain ⟨r₁, c, hmake, h₁, hc, hedge, -⟩ := h.getOrMake hg hnodes heg (hnodup e heg)
    (Forest.children_eq_nil hg hrs heg) fun _ => Forest.parent?_eq_none hrs hear
  have hears : ∀ s ∈ rs, s.ear.vertices ≠ e.vertices := fun s hs => hrs.ear_ne hs hear
  unfold Register.enter
  rw [hmake, Forest.nodes_concat]
  cases w with
  | none => exact h₁.addRoot hears
  | some w =>
      obtain ⟨hw, hne⟩ := mem_others.mp hwitness.1
      have hwg : w ∈ g := hsub w hw
      have hnodes₁ : ∀ n ∈ Forest.addNode (Forest.nodes ⟨rs⟩) e, n ∈ g := by
        intro n hn
        rcases (Forest.mem_addNode hg hnodes heg).mp hn with hn | rfl
        · exact hnodes n hn
        · exact heg
      have hnot : w ∉ Forest.addNode (Forest.nodes ⟨rs⟩) e → w ∉ Forest.nodes ⟨rs⟩ :=
        fun hw hmem => hw ((Forest.mem_addNode hg hnodes heg).mpr (Or.inl hmem))
      have hwparent := Forest.parent?_eq_none hrs hw
      obtain ⟨r₂, p, hmake₂, h₂, hp, hedge₂, hkeep⟩ := h₁.getOrMake hg hnodes₁ hwg (hnodup w hwg)
        (fun hw => Forest.children_eq_nil hg hrs hwg (hnot hw)) fun _ => hwparent
      have hedgec : r₂.edge c = e := (congrArg Node.edge (hkeep c hc).2).trans hedge
      have hcp : c ≠ p := by
        rintro rfl
        exact hne (congrArg Hyperedge.vertices (hedge₂.symm.trans hedgec))
      have hadd := h₂.addChild hp (hkeep c hc).1 (by rwa [hedgec])
        (h₂.not_way (hkeep c hc).1 (by rwa [hedge₂]) hcp)
      rw [hedgec, hedge₂] at hadd
      dsimp only
      rw [hmake₂]
      exact hadd

theorem empty : Register.empty.Draws [] ⟨[]⟩ := ⟨Consistent.empty, rfl, nofun, nofun⟩

/-- The removals of a run, entered one by one. -/
theorem foldl_enter (hg : g.Distinct) (hnodup : ∀ e ∈ g, e.vertices.Nodup)
    (hrun : Eliminates rs g left) :
    (rs.foldl Register.enter Register.empty).Draws (Forest.nodes ⟨rs⟩) ⟨rs⟩ := by
  induction rs using List.reverseRecOn generalizing left with
  | nil => exact empty
  | append_singleton rs m ih =>
      obtain ⟨g', hrs, -⟩ := hrun.of_append
      rw [List.foldl_append]
      exact (ih hrs).enter hg hnodup hrun

/-- The nodes without a parent are those of the forest. -/
theorem map_edge_filter (h : r.Draws f.nodes f) :
    (r.members.filter fun i => (r.node i).parent.isNone).map r.edge = f.roots := by
  rw [Forest.roots, ← h.nodes_eq, List.filter_map]
  refine congrArg (List.map r.edge) (List.filter_congr fun i hi => ?_)
  rw [Function.comp_apply, ← h.parent_eq i hi, Option.isNone_map]

end Draws

end Register

namespace Query

/-- The removals of an elimination of ears, entered in a register, build the forest that
they are: its nodes in order under their keys, its links at both ends, and its roots. -/
theorem draws_of_forest? {q : Query} {f : Forest} (hf : (ofQuery q).forest? = some f) :
    let r := Register.ofRemovals f.removals
    r.Draws f.nodes f ∧ r.listed.map Prod.fst = f.nodes.map (fun n => canonicalKey n.vertices) ∧
      r.roots.map r.edge = f.roots := by
  have hq := merges_ofQuery q
  have h := Forest.spans_of_forest? hq.distinct hf
  have hdraws := Register.Draws.foldl_enter hq.distinct hq.nodup h.eliminates
  refine ⟨⟨hdraws.consistent.setRoots, hdraws.nodes_eq, hdraws.children_eq, hdraws.parent_eq⟩,
    ?_, hdraws.map_edge_filter⟩
  change List.map Prod.fst (f.removals.foldl Register.enter Register.empty).listed = _
  rw [← hdraws.consistent.keyed.map_key_members, ← hdraws.nodes_eq, List.map_map]
  rfl

end Query

end Conjunctive
