import Conjunctive.Proofs.Forest.Intersection

/-!
# The shape of the forest of a query

What the forest of an acyclic query looks like: its nodes are the sets of
variables of the atoms and carry the atoms (`Covers`), its links agree at both
ends and lead to one root from everywhere (`WellLinked`), and the variables run
along its paths and never from tree to tree.
-/

namespace Conjunctive

/-- The sets of variables that occur together in some atom, ground atoms aside. -/
def Query.variableSets (q : Query) : Set (Set String) :=
  {s | s.Nonempty ∧ ∃ a ∈ q.body, a.variableSet = s}

namespace Atom

theorem variableSet_nonempty_iff {a : Atom} : a.variableSet.Nonempty ↔ a.isGround = false := by
  rw [isGround_eq_false_iff]
  constructor
  · rintro ⟨v, hv⟩
    exact List.ne_nil_of_mem hv
  · exact List.exists_mem_of_ne_nil _

end Atom

namespace Hypergraph

/-- The hyperedges of a query are its sets of variables. -/
theorem edgeSets_ofQuery (q : Query) : edgeSets (ofQuery q) = q.variableSets := by
  have h := merges_ofQuery q
  ext s
  constructor
  · rintro ⟨e, he, rfl⟩
    obtain ⟨a, ha, hground, heq⟩ := h.exists_atom e he
    rw [heq]
    exact ⟨Atom.variableSet_nonempty_iff.mpr hground, a, ha, rfl⟩
  · rintro ⟨hne, a, ha, rfl⟩
    obtain ⟨e, he, heq⟩ := h.covers a ha (Atom.variableSet_nonempty_iff.mp hne)
    exact ⟨e, he, heq⟩

end Hypergraph

namespace Forest

open Classical in
/-- The nodes of a forest are the sets of variables of a query, each with the
atoms that have exactly these variables. -/
structure Covers (f : Forest) (q : Query) : Prop where
  nodup_nodes : f.nodes.Nodup
  bijOn : Set.BijOn Hyperedge.vertexSet {n | n ∈ f.nodes} q.variableSets
  nodup_vertices : ∀ n ∈ f.nodes, n.vertices.Nodup
  atoms_eq : ∀ n ∈ f.nodes, n.atoms = q.body.filter fun a => a.variableSet = n.vertexSet
  existsUnique : ∀ a ∈ q.body, a.variableSet.Nonempty → ∃! n, n ∈ f.nodes ∧ a ∈ n.atoms

/-- The links of a forest agree at both ends, form no cycle, and lead from every
node to exactly one root. -/
structure WellLinked (f : Forest) : Prop where
  mem_children_iff : ∀ p ∈ f.nodes, ∀ c, c ∈ f.children p ↔ c ∈ f.nodes ∧ f.parent? c = some p
  mem_of_parent : ∀ c ∈ f.nodes, ∀ p, f.parent? c = some p → p ∈ f.nodes
  nodup_children : (f.nodes.flatMap f.children).Nodup
  acyclic : ∀ n ∈ f.nodes, ¬ Relation.TransGen (fun c p => f.parent? c = some p) n n
  nodup_roots : f.roots.Nodup
  mem_roots_iff : ∀ n, n ∈ f.roots ↔ n ∈ f.nodes ∧ f.parent? n = none
  existsUnique_root : ∀ n ∈ f.nodes, ∃! r, r ∈ f.roots ∧ f.Under n r

namespace Spans

variable {f : Forest} {g : Hypergraph}

/-- Above a node, parents and links are the same. -/
theorem under_iff (h : f.Spans g) {n m : Hyperedge} (hn : n ∈ g) :
    f.Under n m ↔ Relation.ReflTransGen f.Link n m := by
  constructor
  · intro hpath
    induction hpath using Relation.ReflTransGen.head_induction_on with
    | refl => exact .refl
    | head hstep _ ih =>
        have hlink := (h.parent?_eq_some_iff hn).mp hstep
        exact (ih (h.mem_of_link hlink).2).head hlink
  · refine Relation.ReflTransGen.mono (fun c p hlink => ?_) _ _
    exact (h.parent?_eq_some_iff (h.mem_of_link hlink).1).mpr hlink

theorem rank_lt_of_transGen (h : f.Spans g) {n m : Hyperedge} (hn : n ∈ g)
    (hpath : Relation.TransGen (fun c p => f.parent? c = some p) n m) : f.rank n < f.rank m := by
  induction hpath using Relation.TransGen.head_induction_on with
  | single hstep => exact h.rank_lt ((h.parent?_eq_some_iff hn).mp hstep)
  | head hstep _ ih =>
      have hlink := (h.parent?_eq_some_iff hn).mp hstep
      exact (h.rank_lt hlink).trans (ih (h.mem_of_link hlink).2)

theorem wellLinked (h : f.Spans g) : f.WellLinked where
  mem_children_iff := by
    intro p hp c
    rw [h.mem_children_iff (h.mem_nodes_iff.mp hp), h.mem_nodes_iff]
    constructor
    · intro hlink
      have hc := (h.mem_of_link hlink).1
      exact ⟨hc, (h.parent?_eq_some_iff hc).mpr hlink⟩
    · rintro ⟨hc, hparent⟩
      exact (h.parent?_eq_some_iff hc).mp hparent
  mem_of_parent := by
    intro c hc p hparent
    have hlink := (h.parent?_eq_some_iff (h.mem_nodes_iff.mp hc)).mp hparent
    exact h.mem_nodes_iff.mpr (h.mem_of_link hlink).2
  nodup_children := h.nodup_flatMap_children h.nodup_nodes fun _ hn => h.mem_nodes_iff.mp hn
  acyclic := by
    intro n hn hpath
    exact lt_irrefl _ (h.rank_lt_of_transGen (h.mem_nodes_iff.mp hn) hpath)
  nodup_roots := h.nodup_nodes.filter _
  mem_roots_iff := by
    intro n
    rw [roots, List.mem_filter, Option.isNone_iff_eq_none]
  existsUnique_root := by
    intro n hn
    rw [h.mem_nodes_iff] at hn
    obtain ⟨r, hr, hpath⟩ := h.exists_root hn
    refine ⟨r, ⟨hr, (h.under_iff hn).mpr hpath⟩, ?_⟩
    rintro r' ⟨hr', hpath'⟩
    exact h.root_unique hr' hr ((h.under_iff hn).mp hpath') hpath

theorem reachable_of_under (h : f.Spans g) {n m : Hyperedge} (hn : n ∈ g) (hnm : f.Under n m) :
    f.graph.Reachable n m := by
  rw [h.under_iff hn] at hnm
  induction hnm with
  | refl => exact SimpleGraph.Reachable.refl _
  | tail _ hlink ih => exact ih.trans (h.adj_graph_iff.mpr (Or.inl hlink)).reachable

/-- Two nodes of one tree have one path between them, and what they share is in
every node on it. -/
theorem exists_path (h : f.Spans g) {u v r : Hyperedge} (hu : u ∈ g) (hv : v ∈ g)
    (hur : f.Under u r) (hvr : f.Under v r) :
    ∃ p : f.graph.Path u v, (∀ p' : f.graph.Path u v, p' = p) ∧
      ∀ x, x ∈ u.vertices → x ∈ v.vertices → ∀ w ∈ p.1.support, x ∈ w.vertices := by
  classical
  obtain ⟨walk⟩ := (h.reachable_of_under hu hur).trans (h.reachable_of_under hv hvr).symm
  refine ⟨walk.toPath, fun p' => (h.isAcyclic_graph.subsingleton_path u v).elim _ _, ?_⟩
  intro x hxu hxv w hw
  exact h.isJoinForest.mem_of_mem_support h.isAcyclic_graph (h.mem_nodes_iff.mpr hu)
    (h.mem_nodes_iff.mpr hv) hxu hxv walk.toPath.2 hw

/-- Nodes that share a variable lie under the same root, since their links meet
at the top of the variable. -/
theorem root_eq_of_shared (h : f.Spans g) {u v r s : Hyperedge} (hu : u ∈ g) (hv : v ∈ g)
    (hr : r ∈ f.roots) (hs : s ∈ f.roots) (hur : f.Under u r) (hvs : f.Under v s) {x : String}
    (hxu : x ∈ u.vertices) (hxv : x ∈ v.vertices) : r = s := by
  obtain ⟨t, ht, -, htop⟩ := h.exists_top hu hxu
  have hlinks : ∀ n ∈ g, x ∈ n.vertices → Relation.ReflTransGen f.Link n t := by
    intro n hn hxn
    exact Relation.ReflTransGen.mono (fun _ _ hlink => hlink.1) _ _ (htop n hn hxn)
  obtain ⟨r₀, hr₀, hpath⟩ := h.exists_root ht
  have hrr := h.root_unique hr hr₀ ((h.under_iff hu).mp hur) ((hlinks u hu hxu).trans hpath)
  have hsr := h.root_unique hs hr₀ ((h.under_iff hv).mp hvs) ((hlinks v hv hxv).trans hpath)
  rw [hrr, hsr]

theorem covers {q : Query} (h : f.Spans (Hypergraph.ofQuery q)) : f.Covers q where
  nodup_nodes := h.nodup_nodes
  bijOn := by
    refine ⟨?_, ?_, ?_⟩
    · intro n hn
      rw [← Hypergraph.edgeSets_ofQuery]
      exact ⟨n, h.mem_nodes_iff.mp hn, rfl⟩
    · intro m hm n hn heq
      exact h.distinct.eq_of_vertexSet_eq (h.mem_nodes_iff.mp hm) (h.mem_nodes_iff.mp hn) heq
    · rw [← Hypergraph.edgeSets_ofQuery]
      rintro s ⟨n, hn, rfl⟩
      exact ⟨n, h.mem_nodes_iff.mpr hn, rfl⟩
  nodup_vertices := by
    intro n hn
    exact (Hypergraph.merges_ofQuery q).nodup n (h.mem_nodes_iff.mp hn)
  atoms_eq := by
    classical
    intro n hn
    rw [(Hypergraph.merges_ofQuery q).atoms_eq n (h.mem_nodes_iff.mp hn)]
    apply List.filter_congr
    intro a _
    rw [Bool.eq_iff_iff, Hyperedge.sameSet_iff_vertexSet_eq, decide_eq_true_iff, eq_comm]
  existsUnique := by
    intro a ha hne
    have hmerges := Hypergraph.merges_ofQuery q
    have hatoms : ∀ n ∈ f.nodes, a ∈ n.atoms ↔ n.vertexSet = a.variableSet := by
      intro n hn
      rw [hmerges.atoms_eq n (h.mem_nodes_iff.mp hn), List.mem_filter,
        Hyperedge.sameSet_iff_vertexSet_eq]
      exact ⟨And.right, fun heq => ⟨ha, heq⟩⟩
    obtain ⟨n, hn, heq⟩ := hmerges.covers a ha (Atom.variableSet_nonempty_iff.mp hne)
    rw [← h.mem_nodes_iff] at hn
    refine ⟨n, ⟨hn, (hatoms n hn).mpr heq⟩, ?_⟩
    rintro m ⟨hm, ham⟩
    exact h.distinct.eq_of_vertexSet_eq (h.mem_nodes_iff.mp hm) (h.mem_nodes_iff.mp hn)
      (((hatoms m hm).mp ham).trans heq.symm)

end Spans

end Forest

namespace Query

/-- What the elimination of a query gives is a join forest of its atoms. The
nodes are the sets of variables, each with its atoms; the links form trees; on
the path between two nodes of a tree every node has what the two share; and
nodes of different trees share nothing. -/
theorem shape_of_forest? {q : Query} {f : Forest}
    (hf : (Hypergraph.ofQuery q).forest? = some f) :
    f.Covers q ∧ f.WellLinked ∧
      (∀ r ∈ f.roots, ∀ u ∈ f.nodes, ∀ v ∈ f.nodes, f.Under u r → f.Under v r →
        ∃ p : f.graph.Path u v, (∀ p' : f.graph.Path u v, p' = p) ∧
          ∀ x, x ∈ u.vertices → x ∈ v.vertices → ∀ w ∈ p.1.support, x ∈ w.vertices) ∧
      (∀ r ∈ f.roots, ∀ s ∈ f.roots, r ≠ s → ∀ u ∈ f.nodes, ∀ v ∈ f.nodes,
        f.Under u r → f.Under v s → ∀ x, x ∈ u.vertices → x ∉ v.vertices) := by
  have h := Forest.spans_of_forest? (Hypergraph.merges_ofQuery q).distinct hf
  refine ⟨h.covers, h.wellLinked, ?_, ?_⟩
  · intro r _ u hu v hv hur hvr
    exact h.exists_path (h.mem_nodes_iff.mp hu) (h.mem_nodes_iff.mp hv) hur hvr
  · intro r hr s hs hne u hu v hv hur hvs x hxu hxv
    exact hne (h.root_eq_of_shared (h.mem_nodes_iff.mp hu) (h.mem_nodes_iff.mp hv) hr hs hur hvs
      hxu hxv)

/-- A chain of two atoms, one of them given twice, an atom apart from them, and
a ground atom. -/
def chainAndOther : Query where
  head := Head.ofVars ["x"]
  body :=
    [.free "r" [.variable "x", .variable "y"], .free "s" [.variable "y", .variable "z"],
      .free "s" [.variable "z", .variable "y"], .free "t" [.variable "w"],
      .free "u" [.constant (.int 1)]]

theorem shape_of_chainAndOther :
    ∃ f, (Hypergraph.ofQuery chainAndOther).forest? = some f ∧
      f.Covers chainAndOther ∧ f.WellLinked ∧
      (∀ r ∈ f.roots, ∀ u ∈ f.nodes, ∀ v ∈ f.nodes, f.Under u r → f.Under v r →
        ∃ p : f.graph.Path u v, (∀ p' : f.graph.Path u v, p' = p) ∧
          ∀ x, x ∈ u.vertices → x ∈ v.vertices → ∀ w ∈ p.1.support, x ∈ w.vertices) ∧
      (∀ r ∈ f.roots, ∀ s ∈ f.roots, r ≠ s → ∀ u ∈ f.nodes, ∀ v ∈ f.nodes,
        f.Under u r → f.Under v s → ∀ x, x ∈ u.vertices → x ∉ v.vertices) := by
  obtain ⟨f, hf⟩ := Option.isSome_iff_exists.mp
    (by cbv : (Hypergraph.ofQuery chainAndOther).forest?.isSome = true)
  exact ⟨f, hf, shape_of_forest? hf⟩

end Query

end Conjunctive
