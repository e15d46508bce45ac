import Conjunctive.Forest.Register
import Conjunctive.Proofs.Forest.Key
import Conjunctive.Proofs.Hypergraph.Merging

/-!
# Runs of a register

Operations are done one after the other, and after each of them the parent links to
nodes that nothing holds are cleared (`Runs`). A listed node keeps its hyperedge, and
none but a new key is listed; so at any time the listed nodes have different keys and
are found by them (`Keyed`). As keys are sets of names, a register makes a node just
for a set that no listed node has, and it tells sets apart as a hypergraph does.
-/

namespace Conjunctive

namespace Register

variable {r : Register} {i j : Nat} {key : String}

/-! ### Operations -/

/-- What can be done to a register. -/
inductive Operation where
  | make (vertices : List String) (atoms : List Atom)
  | add (i : Nat)
  | getOrMake (vertices : List String) (atoms : List Atom)
  | addChild (parent child : Nat)
  | remove (key : String)
  | setRoots

namespace Operation

/-- The register after an operation. -/
def apply (r : Register) : Operation → Register
  | make vertices atoms => (r.make vertices atoms).1
  | add i => (r.add i).1
  | getOrMake vertices atoms => (r.getOrMake vertices atoms).1
  | addChild parent child => r.addChild parent child
  | remove key => (r.remove key).1
  | setRoots => r.setRoots

/-- The nodes that an operation is given. -/
def names : Operation → List Nat
  | make _ _ => []
  | add i => [i]
  | getOrMake _ _ => []
  | addChild parent child => [parent, child]
  | remove _ => []
  | setRoots => []

/-- An operation is given nodes that have been made. -/
def NamesMade (r : Register) (o : Operation) : Prop := ∀ i ∈ o.names, i < r.nodes.length

end Operation

/-- A register that operations lead to from the empty one, each of them allowed where it
is done. After an operation the caller holds on to some nodes, whichever. -/
inductive Runs (allowed : Register → Operation → Prop) : List Operation → Register → Prop
  | nil : Runs allowed [] empty
  | snoc {ops : List Operation} {r : Register} (o : Operation) (caller : List Nat)
      (run : Runs allowed ops r) (ok : allowed r o) :
      Runs allowed (ops ++ [o]) ((o.apply r).forget caller)

/-! ### Nodes by number -/

theorem node_update (hi : i < r.nodes.length) (f : Node → Node) (j : Nat) :
    (r.update i f).node j = if j = i then f (r.node j) else r.node j := by
  simp only [node, update, List.getD_eq_getElem?_getD, List.getElem?_modify]
  split_ifs with h h' h'
  · rw [h', List.getElem?_eq_getElem hi]
    rfl
  · exact absurd h.symm h'
  · exact absurd h'.symm h
  · simp

theorem length_update (i : Nat) (f : Node → Node) :
    (r.update i f).nodes.length = r.nodes.length := by
  simp [update]

/-- A node that is changed but for its hyperedge keeps its key. -/
theorem key_update {f : Node → Node} (hf : ∀ n, (f n).edge = n.edge) (j : Nat) :
    (r.update i f).key j = r.key j := by
  by_cases hi : i < r.nodes.length
  · rw [key, node_update hi]
    split_ifs
    · exact congrArg (fun e => canonicalKey e.vertices) (hf _)
    · rfl
  · rw [key, update, node, List.modify_eq_self (Nat.le_of_not_lt hi)]
    rfl

theorem node_make (vertices : List String) (atoms : List Atom) (hi : i < r.nodes.length) :
    (r.make vertices atoms).1.node i = r.node i := by
  simp [node, make, List.getElem?_append_left hi]

/-- The node that has been made has no links. -/
theorem node_make_self (r : Register) (vertices : List String) (atoms : List Atom) :
    (r.make vertices atoms).1.node r.nodes.length = ⟨⟨vertices.eraseDups, atoms⟩, [], none⟩ := by
  simp [node, make]

theorem length_make (vertices : List String) (atoms : List Atom) :
    (r.make vertices atoms).1.nodes.length = r.nodes.length + 1 := by
  simp [make]

theorem node_forget (caller : List Nat) (i : Nat) :
    (r.forget caller).node i =
      { r.node i with parent := (r.node i).parent.filter (r.held caller).contains } := by
  simp only [node, forget, List.getD_eq_getElem?_getD, List.getElem?_map]
  cases r.nodes[i]? with
  | none => rfl
  | some n => rfl

theorem mem_members : i ∈ r.members ↔ ∃ key, (key, i) ∈ r.listed := by
  simp [members]

/-! ### Keys -/

/-- Each key is taken once, by a node that has been made and has this key. -/
structure Keyed (r : Register) : Prop where
  nodup_keys : (r.listed.map Prod.fst).Nodup
  key_eq : ∀ p ∈ r.listed, p.1 = r.key p.2
  made : ∀ i ∈ r.members, i < r.nodes.length

namespace Keyed

theorem mem_listed_iff (h : r.Keyed) : (key, i) ∈ r.listed ↔ i ∈ r.members ∧ r.key i = key := by
  rw [mem_members]
  constructor
  · intro hp
    exact ⟨⟨key, hp⟩, (h.key_eq _ hp).symm⟩
  · rintro ⟨⟨key', hp⟩, rfl⟩
    have hkey : key' = r.key i := h.key_eq _ hp
    rwa [hkey] at hp

theorem map_key_members (h : r.Keyed) : r.members.map r.key = r.listed.map Prod.fst := by
  rw [members, List.map_map]
  exact List.map_congr_left fun p hp => (h.key_eq p hp).symm

/-- Listed nodes are told apart by their keys. -/
theorem key_inj (h : r.Keyed) (hi : i ∈ r.members) (hj : j ∈ r.members)
    (hkey : r.key i = r.key j) : i = j :=
  List.inj_on_of_nodup_map (h.map_key_members ▸ h.nodup_keys) hi hj hkey

theorem find?_eq_some_iff (h : r.Keyed) :
    r.find? key = some i ↔ i ∈ r.members ∧ r.key i = key := by
  constructor
  · intro hfind
    obtain ⟨before, after, hlisted, -⟩ := List.lookup_eq_some_iff.mp hfind
    rw [← h.mem_listed_iff, hlisted]
    simp
  · rintro ⟨hi, rfl⟩
    cases hfind : r.find? (r.key i) with
    | none =>
        have hnot := List.lookup_eq_none_iff.mp hfind (r.key i, i) (h.mem_listed_iff.mpr ⟨hi, rfl⟩)
        exact absurd rfl (bne_iff_ne.mp hnot)
    | some j =>
        obtain ⟨before, after, hlisted, -⟩ := List.lookup_eq_some_iff.mp hfind
        obtain ⟨hj, hkey⟩ : j ∈ r.members ∧ r.key j = r.key i := by
          rw [← h.mem_listed_iff, hlisted]
          simp
        rw [h.key_inj hi hj hkey.symm]

theorem find?_eq_none_iff (h : r.Keyed) :
    r.find? key = none ↔ ∀ i ∈ r.members, r.key i ≠ key := by
  rw [Option.eq_none_iff_forall_ne_some]
  constructor
  · intro hnone i hi hkey
    exact hnone i (h.find?_eq_some_iff.mpr ⟨hi, hkey⟩)
  · intro hne i hfind
    obtain ⟨hi, hkey⟩ := h.find?_eq_some_iff.mp hfind
    exact hne i hi hkey

/-! ### Operations keep the keys -/

/-- A register with some of the listed nodes, none of which has another key. -/
theorem of_sublist (h : r.Keyed) {r' : Register} (hlisted : r'.listed.Sublist r.listed)
    (hkey : ∀ i < r.nodes.length, r'.key i = r.key i)
    (hlength : r.nodes.length ≤ r'.nodes.length) : r'.Keyed where
  nodup_keys := h.nodup_keys.sublist (hlisted.map Prod.fst)
  key_eq p hp := by
    have hmem := hlisted.subset hp
    rw [hkey p.2 (h.made p.2 (List.mem_map_of_mem hmem))]
    exact h.key_eq p hmem
  made i hi := lt_of_lt_of_le (h.made i ((hlisted.map Prod.snd).subset hi)) hlength

theorem empty : Register.empty.Keyed := by
  constructor <;> simp [Register.empty, members]

theorem make (h : r.Keyed) (vertices : List String) (atoms : List Atom) :
    (r.make vertices atoms).1.Keyed :=
  h.of_sublist (List.Sublist.refl _) (fun i hi => congrArg Node.key (node_make vertices atoms hi))
    (by rw [length_make]; exact Nat.le_succ _)

theorem add (h : r.Keyed) (hi : i < r.nodes.length) : (r.add i).1.Keyed := by
  unfold Register.add
  split
  case h_1 => exact h
  case h_2 hfind =>
    refine ⟨?_, ?_, ?_⟩
    · rw [List.map_append, List.nodup_append]
      refine ⟨h.nodup_keys, List.nodup_singleton _, ?_⟩
      intro key hkey key' hkey'
      rw [← h.map_key_members] at hkey
      obtain ⟨j, hj, rfl⟩ := List.mem_map.mp hkey
      rw [List.map_singleton, List.mem_singleton] at hkey'
      rw [hkey']
      exact h.find?_eq_none_iff.mp hfind j hj
    · intro p hp
      rcases List.mem_append.mp hp with hp | hp
      · exact h.key_eq p hp
      · rw [List.mem_singleton.mp hp]
        rfl
    · intro j hj
      rw [members, List.map_append, List.mem_append] at hj
      rcases hj with hj | hj
      · exact h.made j hj
      · rw [List.mem_singleton.mp hj]
        exact hi

theorem getOrMake (h : r.Keyed) (vertices : List String) (atoms : List Atom) :
    (r.getOrMake vertices atoms).1.Keyed := by
  unfold Register.getOrMake
  split
  · exact h
  · exact (h.make vertices atoms).add (by rw [length_make]; exact Nat.lt_succ_self _)

theorem update (h : r.Keyed) {f : Node → Node} (hf : ∀ n, (f n).edge = n.edge) :
    (r.update i f).Keyed :=
  h.of_sublist (List.Sublist.refl _) (fun j _ => key_update hf j)
    (le_of_eq (length_update i f).symm)

theorem addChild (h : r.Keyed) (parent child : Nat) : (r.addChild parent child).Keyed := by
  unfold Register.addChild
  refine (h.update ?_).update ?_
  · exact fun _ => rfl
  · exact fun _ => rfl

theorem detach (h : r.Keyed) (i : Nat) : (r.detach i).Keyed := by
  unfold Register.detach
  split
  · exact h
  · exact h.update fun _ => rfl

theorem orphans (h : r.Keyed) (is : List Nat) : (is.foldl orphan r).Keyed := by
  induction is generalizing r with
  | nil => exact h
  | cons i is ih => exact ih (h.update fun _ => rfl)

theorem remove (h : r.Keyed) (key : String) : (r.remove key).1.Keyed := by
  unfold Register.remove
  split
  · exact h
  · have hlisted : Keyed { r with listed := r.listed.filter (·.1 != key) } :=
      h.of_sublist List.filter_sublist (fun _ _ => rfl) (le_refl _)
    exact ((hlisted.detach _).orphans _).of_sublist (List.Sublist.refl _) (fun _ _ => rfl) (le_refl _)

theorem setRoots (h : r.Keyed) : r.setRoots.Keyed :=
  h.of_sublist (List.Sublist.refl _) (fun _ _ => rfl) (le_refl _)

theorem forget (h : r.Keyed) (caller : List Nat) : (r.forget caller).Keyed := by
  refine h.of_sublist (List.Sublist.refl _) (fun i _ => ?_) (by simp [Register.forget])
  rw [Register.key, node_forget]
  rfl

theorem apply (h : r.Keyed) {o : Operation} (ho : o.NamesMade r) : (o.apply r).Keyed := by
  cases o with
  | make vertices atoms => exact h.make vertices atoms
  | add i => exact h.add (ho i (List.mem_singleton_self i))
  | getOrMake vertices atoms => exact h.getOrMake vertices atoms
  | addChild parent child => exact h.addChild parent child
  | remove key => exact h.remove key
  | setRoots => exact h.setRoots

end Keyed

theorem Runs.keyed {allowed : Register → Operation → Prop} {ops : List Operation}
    (run : Runs allowed ops r) (hmade : ∀ r o, allowed r o → o.NamesMade r) : r.Keyed := by
  induction run with
  | nil => exact Keyed.empty
  | snoc o caller _ ok ih => exact (ih.apply (hmade _ _ ok)).forget caller

/-! ### Sets of names -/

namespace Keyed

variable {vertices : List String} {atoms : List Atom}

/-- A listed node is given just if it has the same vertices. -/
theorem getOrMake_eq_iff (h : r.Keyed) :
    r.getOrMake vertices atoms = (r, i) ↔
      i ∈ r.members ∧ ∀ v, v ∈ (r.node i).edge.vertices ↔ v ∈ vertices := by
  rw [← canonicalKey_eq_iff, show canonicalKey (r.node i).edge.vertices = r.key i from rfl,
    ← h.find?_eq_some_iff]
  unfold Register.getOrMake
  cases hfind : r.find? (canonicalKey vertices) with
  | some j => simp
  | none =>
      refine iff_of_false (fun heq => ?_) nofun
      -- the register has grown
      have hadd : ((r.make vertices atoms).1.add r.nodes.length).1.nodes =
          (r.make vertices atoms).1.nodes := by
        unfold Register.add
        split
        · rfl
        · rfl
      have hnodes := congrArg (fun x => x.1.nodes.length) heq
      change ((r.make vertices atoms).1.add r.nodes.length).1.nodes.length = r.nodes.length at hnodes
      rw [hadd, length_make] at hnodes
      omega

/-- Without a listed node over the vertices, one is made and listed under their key. -/
theorem getOrMake_of_forall_not (h : r.Keyed)
    (hnot : ∀ i ∈ r.members, ¬ ∀ v, v ∈ (r.node i).edge.vertices ↔ v ∈ vertices) :
    r.getOrMake vertices atoms =
      ({ r with
          nodes := r.nodes ++ [⟨⟨vertices.eraseDups, atoms⟩, [], none⟩]
          listed := r.listed ++ [(canonicalKey vertices, r.nodes.length)] }, r.nodes.length) := by
  have hfind : r.find? (canonicalKey vertices) = none := by
    rw [h.find?_eq_none_iff]
    intro i hi hkey
    exact hnot i hi (canonicalKey_eq_iff.mp hkey)
  have hkey : (r.make vertices atoms).1.key r.nodes.length = canonicalKey vertices := by
    rw [Register.key, node_make_self]
    exact canonicalKey_eq_iff.mpr fun v => List.mem_eraseDups
  have hfind' : (r.make vertices atoms).1.find? (canonicalKey vertices) = none := hfind
  unfold Register.getOrMake
  rw [hfind]
  change (r.make vertices atoms).1.add r.nodes.length = _
  unfold Register.add
  rw [hkey, hfind']
  rfl

end Keyed

/-- A key stands for a set of names: for hyperedges, which have different keys and the
atoms over their key, and for the nodes of a register at any time, one of which is given
again just for its own set of names. -/
theorem key_identifies_names :
    (∀ us vs : List String, canonicalKey us = canonicalKey vs ↔ ∀ v, v ∈ us ↔ v ∈ vs) ∧
    (∀ us vs : List String,
      Hyperedge.sameSet us vs = true ↔ canonicalKey us = canonicalKey vs) ∧
    (∀ q : Query,
      List.Pairwise (fun e f => canonicalKey e.vertices ≠ canonicalKey f.vertices)
        (Hypergraph.ofQuery q) ∧
      (∀ e ∈ Hypergraph.ofQuery q,
        e.atoms = q.body.filter fun a => canonicalKey a.vars == canonicalKey e.vertices) ∧
      ∀ a ∈ q.body, a.isGround = false →
        ∃ e ∈ Hypergraph.ofQuery q, canonicalKey e.vertices = canonicalKey a.vars) ∧
    ∀ (ops : List Operation) (r : Register), Runs Operation.NamesMade ops r →
      ∀ (vertices : List String) (atoms : List Atom),
        (∀ i, r.getOrMake vertices atoms = (r, i) ↔
          i ∈ r.members ∧ ∀ v, v ∈ (r.node i).edge.vertices ↔ v ∈ vertices) ∧
        ((∀ i ∈ r.members, ¬ ∀ v, v ∈ (r.node i).edge.vertices ↔ v ∈ vertices) →
          r.getOrMake vertices atoms =
            ({ r with
                nodes := r.nodes ++ [⟨⟨vertices.eraseDups, atoms⟩, [], none⟩]
                listed := r.listed ++ [(canonicalKey vertices, r.nodes.length)] },
              r.nodes.length)) := by
  have hset : ∀ us vs : List String,
      Hyperedge.sameSet us vs = true ↔ canonicalKey us = canonicalKey vs := by
    intro us vs
    rw [Hyperedge.sameSet_iff, canonicalKey_eq_iff]
  refine ⟨fun us vs => canonicalKey_eq_iff, hset, fun q => ⟨?_, ?_, ?_⟩, ?_⟩
  · refine (Hypergraph.merges_ofQuery q).distinct.imp fun hne hkey => hne ?_
    exact Set.ext (canonicalKey_eq_iff.mp hkey)
  · intro e he
    rw [(Hypergraph.merges_ofQuery q).atoms_eq e he]
    refine List.filter_congr fun a _ => ?_
    rw [Bool.eq_iff_iff, hset, beq_iff_eq]
    exact eq_comm
  · intro a ha hground
    obtain ⟨e, he, hea⟩ := (Hypergraph.merges_ofQuery q).covers a ha hground
    exact ⟨e, he, canonicalKey_eq_iff.mpr (Set.ext_iff.mp hea)⟩
  · intro ops r run vertices atoms
    have hkeyed : r.Keyed := run.keyed fun _ _ hmade => hmade
    exact ⟨fun i => hkeyed.getOrMake_eq_iff, hkeyed.getOrMake_of_forall_not⟩

/-- A separator in a name is no separator of names. -/
theorem getOrMake_separator :
    let r := ((empty.getOrMake ["a, b", "c"] []).1).forget []
    r.getOrMake ["c", "a, b", "c"] [] = (r, 0) ∧ (r.getOrMake ["a", "b, c"] []).2 = 1 := by
  intro r
  have run : Runs Operation.NamesMade ([] ++ [.getOrMake ["a, b", "c"] []]) r :=
    .snoc (.getOrMake ["a, b", "c"] []) [] .nil (fun i hi => by cases hi)
  have hmembers : r.members = [0] := rfl
  have hvertices : (r.node 0).edge.vertices = ["a, b", "c"] := by decide
  refine ⟨((key_identifies_names.2.2.2 _ r run _ []).1 0).mpr ⟨by simp [hmembers], ?_⟩, ?_⟩
  · intro v
    rw [hvertices]
    simp only [List.mem_cons, List.not_mem_nil]
    tauto
  · rw [(key_identifies_names.2.2.2 _ r run _ []).2]
    · rfl
    · rw [hmembers]
      intro i hi hsame
      rw [List.mem_singleton.mp hi, hvertices] at hsame
      exact absurd ((hsame "c").mp (by simp)) (by decide)

end Register

end Conjunctive
