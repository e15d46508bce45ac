import Conjunctive.Proofs.Forest.Operation
import Mathlib.Data.Fintype.Card
import Mathlib.Data.Set.Finite.Basic
import Mathlib.Logic.Relation

/-!
# The links of a register

Between listed nodes a link is known at both ends or at none, no link of theirs leaves the
list, and no way along links leads back to where it began (`Consistent`). This is kept by
every operation that may be done (`Operation.Admissible`): a node is listed without links,
a link leads to a node without a parent and not to one above, and what is taken off the
list loses its links at their other ends. All other operations add no link (`LinksIn`). It
does not matter that parents are not held, since the list holds them. A way up from a listed
node ends as there are finitely many, and it ends at one node only; if the roots have just
been set, this node is a root.
-/

namespace Conjunctive

/-- A way that may take one more step from `c` to `d` does not, or comes to `c` and goes on
from `d`. -/
theorem transGen_or_step {α : Type} {R : α → α → Prop} {a b c d : α}
    (h : Relation.TransGen (fun x y => R x y ∨ x = c ∧ y = d) a b) :
    Relation.TransGen R a b ∨ Relation.ReflTransGen R a c ∧ Relation.ReflTransGen R d b := by
  induction h with
  | single hab =>
      rcases hab with hab | ⟨rfl, rfl⟩
      · exact Or.inl (.single hab)
      · exact Or.inr ⟨.refl, .refl⟩
  | tail _ hbc ih =>
      rcases ih with hab | ⟨hac, hdb⟩
      · rcases hbc with hbc | ⟨rfl, rfl⟩
        · exact Or.inl (hab.tail hbc)
        · exact Or.inr ⟨hab.to_reflTransGen, .refl⟩
      · rcases hbc with hbc | ⟨rfl, rfl⟩
        · exact Or.inr ⟨hac, hdb.tail hbc⟩
        · exact Or.inr ⟨hac, .refl⟩

namespace Register

variable {r : Register} {i j p c : Nat} {key : String}

/-! ### Links -/

/-- A node has another one among its children. -/
def HasChild (r : Register) (p c : Nat) : Prop := c ∈ (r.node p).children

/-- A node has another one as its parent. -/
def HasParent (r : Register) (c p : Nat) : Prop := (r.node c).parent = some p

/-- The listed nodes form a forest, and the roots are some of them. -/
structure Consistent (r : Register) : Prop where
  keyed : r.Keyed
  hasChild_iff : ∀ p ∈ r.members, ∀ c ∈ r.members, r.HasChild p c ↔ r.HasParent c p
  nodup_children : ∀ p ∈ r.members, (r.node p).children.Nodup
  child_mem : ∀ p ∈ r.members, ∀ c, r.HasChild p c → c ∈ r.members
  parent_mem : ∀ c ∈ r.members, ∀ p, r.HasParent c p → p ∈ r.members
  children_acyclic : ∀ i, ¬ Relation.TransGen r.HasChild i i
  parents_acyclic : ∀ i, ¬ Relation.TransGen r.HasParent i i
  roots_mem : ∀ i ∈ r.roots, i ∈ r.members

/-- An operation that may be done. What is listed has no links yet; a link leads between
listed nodes, to one without a parent, from one that is not under it. -/
def Operation.Admissible (r : Register) : Operation → Prop
  | .add i => i < r.nodes.length ∧ (r.node i).children = [] ∧ (r.node i).parent = none
  | .addChild p c => p ∈ r.members ∧ c ∈ r.members ∧ (r.node c).parent = none ∧
      ¬ Relation.ReflTransGen r.HasChild c p
  | _ => True

/-! ### Links that are not new -/

/-- All links of a register are links of another one. -/
def LinksIn (r' r : Register) : Prop :=
  ∀ i, (r'.node i).children ⊆ (r.node i).children ∧
    ∀ p, (r'.node i).parent = some p → (r.node i).parent = some p

namespace LinksIn

theorem refl (r : Register) : r.LinksIn r := fun _ => ⟨List.Subset.refl _, fun _ hp => hp⟩

theorem trans {r₁ r₂ r₃ : Register} (h : r₁.LinksIn r₂) (h' : r₂.LinksIn r₃) : r₁.LinksIn r₃ :=
  fun i => ⟨List.Subset.trans (h i).1 (h' i).1, fun p hp => (h' i).2 p ((h i).2 p hp)⟩

theorem children_acyclic {r' : Register} (h : r'.LinksIn r)
    (hr : ∀ i, ¬ Relation.TransGen r.HasChild i i) (i : Nat) :
    ¬ Relation.TransGen r'.HasChild i i :=
  fun hcycle => hr i (Relation.TransGen.mono (fun j _ hj => (h j).1 hj) _ _ hcycle)

theorem parents_acyclic {r' : Register} (h : r'.LinksIn r)
    (hr : ∀ i, ¬ Relation.TransGen r.HasParent i i) (i : Nat) :
    ¬ Relation.TransGen r'.HasParent i i :=
  fun hcycle => hr i (Relation.TransGen.mono (fun j _ hj => (h j).2 _ hj) _ _ hcycle)

theorem update (r : Register) (i : Nat) {f : Node → Node}
    (hf : ∀ n, (f n).children ⊆ n.children ∧ ∀ p, (f n).parent = some p → n.parent = some p) :
    (r.update i f).LinksIn r := by
  intro j
  by_cases hi : i < r.nodes.length
  · rw [node_update hi]
    split_ifs
    · exact hf _
    · exact refl r j
  · rw [Register.update, List.modify_eq_self (Nat.le_of_not_lt hi)]
    exact refl r j

theorem make (r : Register) (vertices : List String) (atoms : List Atom) :
    (r.make vertices atoms).1.LinksIn r := by
  intro i
  rcases Nat.lt_trichotomy i r.nodes.length with hi | rfl | hi
  · rw [node_make vertices atoms hi]
    exact refl r i
  · rw [node_make_self]
    exact ⟨List.nil_subset _, fun _ hp => absurd hp.symm (Option.some_ne_none _)⟩
  · have hdefault : (r.make vertices atoms).1.node i = default := by
      rw [node, List.getD_eq_getElem?_getD, List.getElem?_eq_none]
      · rfl
      · rw [length_make]
        exact hi
    rw [hdefault]
    exact ⟨List.nil_subset _, fun _ hp => absurd hp.symm (Option.some_ne_none _)⟩

theorem detach (r : Register) (i : Nat) : (r.detach i).LinksIn r := by
  unfold Register.detach
  split
  · exact refl r
  · exact update r _ fun n => ⟨List.filter_subset_self _, fun _ hp => hp⟩

theorem orphans (r : Register) (is : List Nat) : (is.foldl orphan r).LinksIn r := by
  induction is generalizing r with
  | nil => exact refl r
  | cons i is ih => exact (ih _).trans (update r i fun n => ⟨List.Subset.refl _, nofun⟩)

theorem remove (r : Register) (key : String) : (r.remove key).1.LinksIn r := by
  unfold Register.remove
  split
  · exact refl r
  · exact (orphans _ _).trans (detach _ _)

theorem forget (r : Register) (caller : List Nat) : (r.forget caller).LinksIn r := by
  intro i
  rw [node_forget]
  exact ⟨List.Subset.refl _, fun p hp => (Option.filter_eq_some_iff.mp hp).1⟩

end LinksIn

namespace Consistent

theorem made (h : r.Consistent) (hi : i ∈ r.members) : i < r.nodes.length := h.keyed.made i hi

theorem hasParent_of_hasChild (h : r.Consistent) (hp : p ∈ r.members) (hc : r.HasChild p c) :
    r.HasParent c p :=
  (h.hasChild_iff p hp c (h.child_mem p hp c hc)).mp hc

theorem not_hasChild_self (h : r.Consistent) (i : Nat) : ¬ r.HasChild i i :=
  fun hii => h.children_acyclic i (.single hii)

/-- A way up from a listed node is a way down to it. -/
theorem way_of_parents (h : r.Consistent) (hc : c ∈ r.members)
    (hway : Relation.ReflTransGen r.HasParent c p) :
    p ∈ r.members ∧ Relation.ReflTransGen r.HasChild p c := by
  induction hway with
  | refl => exact ⟨hc, .refl⟩
  | @tail i p _ hip ih =>
      have hp := h.parent_mem i ih.1 p hip
      exact ⟨hp, ih.2.head ((h.hasChild_iff p hp i ih.1).mpr hip)⟩

theorem empty : Register.empty.Consistent := by
  refine ⟨Keyed.empty, nofun, nofun, nofun, nofun, ?_, ?_, nofun⟩
  · intro i hcycle
    obtain ⟨j, hij, -⟩ := Relation.TransGen.head'_iff.mp hcycle
    exact absurd hij List.not_mem_nil
  · intro i hcycle
    obtain ⟨j, hij, -⟩ := Relation.TransGen.head'_iff.mp hcycle
    exact absurd hij nofun

/-! ### Operations keep the links -/

/-- A register with the same listed nodes. -/
theorem of_node_eq (h : r.Consistent) {r' : Register} (hkeyed : r'.Keyed)
    (hmembers : r'.members = r.members) (hnode : ∀ i ∈ r.members, r'.node i = r.node i)
    (hlinks : r'.LinksIn r) (hroots : ∀ i ∈ r'.roots, i ∈ r.members) : r'.Consistent where
  keyed := hkeyed
  hasChild_iff p hp c hc := by
    rw [hmembers] at hp hc
    rw [HasChild, HasParent, hnode p hp, hnode c hc]
    exact h.hasChild_iff p hp c hc
  nodup_children p hp := by
    rw [hmembers] at hp
    rw [hnode p hp]
    exact h.nodup_children p hp
  child_mem p hp c hpc := by
    rw [hmembers] at hp ⊢
    rw [HasChild, hnode p hp] at hpc
    exact h.child_mem p hp c hpc
  parent_mem c hc p hcp := by
    rw [hmembers] at hc ⊢
    rw [HasParent, hnode c hc] at hcp
    exact h.parent_mem c hc p hcp
  children_acyclic := hlinks.children_acyclic h.children_acyclic
  parents_acyclic := hlinks.parents_acyclic h.parents_acyclic
  roots_mem i hi := hmembers ▸ hroots i hi

theorem make (h : r.Consistent) (vertices : List String) (atoms : List Atom) :
    (r.make vertices atoms).1.Consistent :=
  h.of_node_eq (h.keyed.make vertices atoms) rfl
    (fun _ hi => node_make vertices atoms (h.made hi)) (LinksIn.make r vertices atoms) h.roots_mem

/-- A node without links is listed. -/
theorem list (h : r.Consistent) (hi : i ∉ r.members) (hchildren : (r.node i).children = [])
    (hparent : (r.node i).parent = none)
    (hkeyed : Keyed { r with listed := r.listed ++ [(r.key i, i)] }) :
    Consistent { r with listed := r.listed ++ [(r.key i, i)] } := by
  have hmem : ∀ j, j ∈ members { r with listed := r.listed ++ [(r.key i, i)] } ↔
      j ∈ r.members ∨ j = i := by
    intro j
    simp [members]
  have hno : ∀ j, ¬ r.HasChild i j := by
    intro j hj
    rw [HasChild, hchildren] at hj
    cases hj
  have hnone : ∀ j, ¬ r.HasParent i j := by
    intro j hj
    rw [HasParent, hparent] at hj
    cases hj
  refine ⟨hkeyed, ?_, ?_, ?_, ?_, h.children_acyclic, h.parents_acyclic,
    fun j hj => (hmem j).mpr (Or.inl (h.roots_mem j hj))⟩
  · intro p hp c hc
    rcases (hmem p).mp hp with hp' | rfl
    · rcases (hmem c).mp hc with hc' | rfl
      · exact h.hasChild_iff p hp' c hc'
      · exact iff_of_false (fun hpc => hi (h.child_mem p hp' c hpc)) (hnone p)
    · refine iff_of_false (hno c) fun hcp => ?_
      rcases (hmem c).mp hc with hc' | rfl
      · exact hi (h.parent_mem c hc' p hcp)
      · exact hnone c hcp
  · intro p hp
    rcases (hmem p).mp hp with hp | rfl
    · exact h.nodup_children p hp
    · exact hchildren ▸ List.nodup_nil
  · intro p hp c hpc
    rcases (hmem p).mp hp with hp | rfl
    · exact (hmem c).mpr (Or.inl (h.child_mem p hp c hpc))
    · exact absurd hpc (hno c)
  · intro c hc p hcp
    rcases (hmem c).mp hc with hc | rfl
    · exact (hmem p).mpr (Or.inl (h.parent_mem c hc p hcp))
    · exact absurd hcp (hnone p)

theorem add (h : r.Consistent) (hi : i < r.nodes.length) (hchildren : (r.node i).children = [])
    (hparent : (r.node i).parent = none) : (r.add i).1.Consistent := by
  have hkeyed := h.keyed.add hi
  unfold Register.add at hkeyed ⊢
  split at hkeyed
  case h_1 => exact h
  case h_2 hfind =>
    exact h.list (fun hmem => h.keyed.find?_eq_none_iff.mp hfind i hmem rfl) hchildren hparent hkeyed

theorem getOrMake (h : r.Consistent) (vertices : List String) (atoms : List Atom) :
    (r.getOrMake vertices atoms).1.Consistent := by
  unfold Register.getOrMake
  split
  · exact h
  · refine (h.make vertices atoms).add ?_ ?_ ?_
    · rw [length_make]
      exact Nat.lt_succ_self _
    · exact congrArg Node.children (node_make_self r vertices atoms)
    · exact congrArg Node.parent (node_make_self r vertices atoms)

end Consistent

theorem children_addChild (hp : p < r.nodes.length) (hc : c < r.nodes.length) (j : Nat) :
    ((r.addChild p c).node j).children =
      if j = p then (r.node j).children ++ [c] else (r.node j).children := by
  rw [addChild, node_update (by rwa [length_update]), node_update hp]
  split_ifs <;> rfl

theorem parent_addChild (hp : p < r.nodes.length) (hc : c < r.nodes.length) (j : Nat) :
    ((r.addChild p c).node j).parent = if j = c then some p else (r.node j).parent := by
  rw [addChild, node_update (by rwa [length_update]), node_update hp]
  split_ifs <;> rfl

theorem hasChild_addChild (hp : p < r.nodes.length) (hc : c < r.nodes.length) {i j : Nat} :
    (r.addChild p c).HasChild i j ↔ r.HasChild i j ∨ i = p ∧ j = c := by
  rw [HasChild, children_addChild hp hc]
  split_ifs with hip
  · rw [List.mem_append, List.mem_singleton]
    simp [HasChild, hip]
  · simp [HasChild, hip]

/-- A link is added to a node without a parent. It closes no circle if the new parent is
not under the node. -/
theorem Consistent.addChild (h : r.Consistent) (hp : p ∈ r.members) (hc : c ∈ r.members)
    (hparent : (r.node c).parent = none) (hbelow : ¬ Relation.ReflTransGen r.HasChild c p) :
    (r.addChild p c).Consistent := by
  have hchild := @hasChild_addChild r p c (h.made hp) (h.made hc)
  have hnew : ∀ i ∈ r.members, ¬ r.HasChild i c := by
    intro i hi hic
    have hci := h.hasParent_of_hasChild hi hic
    rw [HasParent, hparent] at hci
    cases hci
  refine ⟨h.keyed.addChild p c, ?_, ?_, ?_, ?_, ?_, ?_, h.roots_mem⟩
  · intro i hi j hj
    rw [hchild, HasParent, parent_addChild (h.made hp) (h.made hc)]
    split_ifs with hjc
    · rw [hjc, or_iff_right (hnew i hi), Option.some_inj]
      exact ⟨fun hip => hip.1.symm, fun hip => ⟨hip.symm, rfl⟩⟩
    · rw [or_iff_left fun hij => hjc hij.2]
      exact h.hasChild_iff i hi j hj
  · intro i hi
    rw [children_addChild (h.made hp) (h.made hc)]
    split_ifs
    · rw [← List.concat_eq_append]
      exact (h.nodup_children i hi).concat (hnew i hi)
    · exact h.nodup_children i hi
  · intro i hi j hij
    rcases hchild.mp hij with hij | ⟨-, rfl⟩
    · exact h.child_mem i hi j hij
    · exact hc
  · intro j hj i hji
    rw [HasParent, parent_addChild (h.made hp) (h.made hc)] at hji
    split_ifs at hji
    · rwa [← Option.some_inj.mp hji]
    · exact h.parent_mem j hj i hji
  · intro i hcycle
    have hstep : Relation.TransGen (fun x y => r.HasChild x y ∨ x = p ∧ y = c) i i :=
      Relation.TransGen.mono (fun _ _ => hchild.mp) _ _ hcycle
    rcases transGen_or_step hstep with hcycle | ⟨hip, hci⟩
    · exact h.children_acyclic i hcycle
    · exact hbelow (hci.trans hip)
  · intro i hcycle
    have hstep : Relation.TransGen (fun x y => r.HasParent x y ∨ x = c ∧ y = p) i i := by
      refine Relation.TransGen.mono (fun j q hjq => ?_) _ _ hcycle
      rw [HasParent, parent_addChild (h.made hp) (h.made hc)] at hjq
      split_ifs at hjq with hjc
      · exact Or.inr ⟨hjc, (Option.some_inj.mp hjq).symm⟩
      · exact Or.inl hjq
    rcases transGen_or_step hstep with hcycle | ⟨hic, hpi⟩
    · exact h.parents_acyclic i hcycle
    · exact hbelow (h.way_of_parents hp (hpi.trans hic)).2

/-! ### Removal -/

theorem node_orphans (is : List Nat) (j : Nat) :
    (is.foldl orphan r).node j =
      { r.node j with parent := if j ∈ is then none else (r.node j).parent } := by
  have horphan : ∀ (r : Register) (i : Nat),
      (r.orphan i).node j =
        { r.node j with parent := if j = i then none else (r.node j).parent } := by
    intro r i
    by_cases hi : i < r.nodes.length
    · rw [orphan, node_update hi]
      split_ifs <;> rfl
    · rw [orphan, update, List.modify_eq_self (Nat.le_of_not_lt hi)]
      split_ifs with hji
      · rw [hji, node, List.getD_eq_getElem?_getD, List.getElem?_eq_none (Nat.le_of_not_lt hi)]
        rfl
      · rfl
  induction is generalizing r with
  | nil => rfl
  | cons i is ih =>
      rw [List.foldl_cons, ih, horphan]
      by_cases hji : j = i <;> by_cases hj : j ∈ is <;> simp [hji, hj]

theorem listed_orphans (is : List Nat) : (is.foldl orphan r).listed = r.listed := by
  induction is generalizing r with
  | nil => rfl
  | cons i is ih => exact ih

theorem roots_orphans (is : List Nat) : (is.foldl orphan r).roots = r.roots := by
  induction is generalizing r with
  | nil => rfl
  | cons i is ih => exact ih

/-- If no node but its parent has a node among its children, then none has once it has been
taken out of the children of its parent. -/
theorem node_detach (hparent : ∀ p, r.HasParent i p → p < r.nodes.length)
    (hchild : r.HasChild j i → r.HasParent i j) :
    (r.detach i).node j =
      { r.node j with children := (r.node j).children.filter (· != i) } := by
  have hself : ¬ r.HasParent i j →
      r.node j = { r.node j with children := (r.node j).children.filter (· != i) } := by
    intro hji
    rw [List.filter_eq_self.mpr]
    intro c hc
    rw [bne_iff_ne]
    rintro rfl
    exact hji (hchild hc)
  unfold detach
  split
  case h_1 hnone => exact hself (by rw [HasParent, hnone]; exact nofun)
  case h_2 p hsome =>
    rw [node_update (hparent p hsome)]
    split_ifs with hjp
    · rfl
    · refine hself fun hji => hjp ?_
      rw [HasParent, hsome, Option.some_inj] at hji
      exact hji.symm

theorem listed_remove (hfind : r.find? key = some i) :
    (r.remove key).1.listed = r.listed.filter (·.1 != key) := by
  unfold remove detach
  rw [hfind]
  change (List.foldl orphan _ _).listed = _
  rw [listed_orphans]
  split <;> rfl

theorem roots_remove (hfind : r.find? key = some i) :
    (r.remove key).1.roots = r.roots.filter (· != i) := by
  unfold remove detach
  rw [hfind]
  change (List.foldl orphan _ _).roots.filter (· != i) = _
  rw [roots_orphans]
  split <;> rfl

/-- What is held stays held. -/
theorem subset_holdFrom (steps : Nat) (held : List Nat) : held ⊆ r.holdFrom steps held := by
  induction steps generalizing held with
  | zero => exact List.Subset.refl held
  | succ steps ih =>
      intro i hi
      exact ih _ (List.mem_eraseDups.mpr (List.mem_append_left _ hi))

namespace Consistent

variable (h : r.Consistent)

include h

/-- A listed node after a removal: the node that is removed is none of its children and
not its parent. -/
theorem node_remove (hfind : r.find? key = some i) (hj : j ∈ r.members) :
    (r.remove key).1.node j =
      { r.node j with
        children := (r.node j).children.filter (· != i)
        parent := if j ∈ (r.node i).children then none else (r.node j).parent } := by
  obtain ⟨hi, -⟩ := h.keyed.find?_eq_some_iff.mp hfind
  have hdetach : ∀ j ∈ r.members,
      (detach { r with listed := r.listed.filter (·.1 != key) } i).node j =
        { r.node j with children := (r.node j).children.filter (· != i) } := by
    intro j hj
    exact node_detach (fun p hip => h.made (h.parent_mem i hi p hip)) (h.hasParent_of_hasChild hj)
  have hchildren : (r.node i).children.filter (· != i) = (r.node i).children := by
    refine List.filter_eq_self.mpr fun c hc => bne_iff_ne.mpr fun hci => ?_
    exact h.not_hasChild_self i (hci ▸ hc)
  unfold remove
  rw [hfind]
  change (List.foldl orphan _ _).node j = _
  rw [node_orphans, hdetach j hj, hdetach i hi]
  simp only [hchildren]

theorem mem_members_remove (hfind : r.find? key = some i) :
    j ∈ (r.remove key).1.members ↔ j ∈ r.members ∧ j ≠ i := by
  obtain ⟨hi, hkey⟩ := h.keyed.find?_eq_some_iff.mp hfind
  rw [mem_members, listed_remove hfind]
  simp only [List.mem_filter, bne_iff_ne, h.keyed.mem_listed_iff]
  constructor
  · rintro ⟨-, ⟨hj, rfl⟩, hne⟩
    exact ⟨hj, fun hji => hne (hji ▸ hkey)⟩
  · rintro ⟨hj, hne⟩
    exact ⟨r.key j, ⟨hj, rfl⟩, fun hjk => hne (h.keyed.key_inj hj hi (hjk.trans hkey.symm))⟩

theorem remove (key : String) : (r.remove key).1.Consistent := by
  cases hfind : r.find? key with
  | none =>
      unfold Register.remove
      rw [hfind]
      exact h
  | some i =>
      obtain ⟨hi, -⟩ := h.keyed.find?_eq_some_iff.mp hfind
      have hmem := fun j => h.mem_members_remove (j := j) hfind
      have hnode := fun j hj => h.node_remove (j := j) hfind hj
      have hchild : ∀ p ∈ r.members, ∀ c,
          (r.remove key).1.HasChild p c ↔ r.HasChild p c ∧ c ≠ i := by
        intro p hp c
        rw [HasChild, hnode p hp, List.mem_filter, bne_iff_ne]
        rfl
      have hparent : ∀ c ∈ r.members, ∀ p,
          (r.remove key).1.HasParent c p ↔ r.HasParent c p ∧ p ≠ i := by
        intro c hc p
        rw [HasParent, hnode c hc]
        dsimp only
        split_ifs with hci
        · refine iff_of_false nofun fun hcp => hcp.2 ?_
          have hsome : (r.node c).parent = some i := h.hasParent_of_hasChild hi hci
          exact Option.some_inj.mp (hcp.1.symm.trans hsome)
        · refine ⟨fun hcp => ⟨hcp, ?_⟩, fun hcp => hcp.1⟩
          rintro rfl
          exact hci ((h.hasChild_iff p hi c hc).mpr hcp)
      refine ⟨h.keyed.remove key, ?_, ?_, ?_, ?_,
        (LinksIn.remove r key).children_acyclic h.children_acyclic,
        (LinksIn.remove r key).parents_acyclic h.parents_acyclic, ?_⟩
      · intro p hp c hc
        rw [hmem] at hp hc
        rw [hchild p hp.1, hparent c hc.1, and_iff_left hc.2, and_iff_left hp.2]
        exact h.hasChild_iff p hp.1 c hc.1
      · intro p hp
        rw [hmem] at hp
        rw [hnode p hp.1]
        exact (h.nodup_children p hp.1).filter _
      · intro p hp c hpc
        rw [hmem] at hp ⊢
        rw [hchild p hp.1] at hpc
        exact ⟨h.child_mem p hp.1 c hpc.1, hpc.2⟩
      · intro c hc p hcp
        rw [hmem] at hc ⊢
        rw [hparent c hc.1] at hcp
        exact ⟨h.parent_mem c hc.1 p hcp.1, hcp.2⟩
      · intro j hj
        rw [roots_remove hfind, List.mem_filter, bne_iff_ne] at hj
        exact (hmem j).mpr ⟨h.roots_mem j hj.1, hj.2⟩

/-! ### Roots -/

theorem setRoots : r.setRoots.Consistent :=
  h.of_node_eq h.keyed.setRoots rfl (fun _ _ => rfl) (LinksIn.refl r)
    fun _ hi => List.mem_of_mem_filter hi

/-- The list holds the parents of listed nodes. -/
theorem node_forget (caller : List Nat) (hi : i ∈ r.members) :
    (r.forget caller).node i = r.node i := by
  rw [Register.node_forget]
  cases hparent : (r.node i).parent with
  | none => rw [Option.filter_none, ← hparent]
  | some p =>
      have hheld : p ∈ r.held caller := by
        refine subset_holdFrom _ _ ?_
        rw [List.mem_eraseDups, List.mem_append, List.mem_append]
        exact Or.inl (Or.inr (h.parent_mem i hi p hparent))
      rw [Option.filter_some, if_pos (List.contains_iff_mem.mpr hheld), ← hparent]

theorem forget (caller : List Nat) : (r.forget caller).Consistent :=
  h.of_node_eq (h.keyed.forget caller) rfl (fun _ hi => h.node_forget caller hi)
    (LinksIn.forget r caller) h.roots_mem

theorem apply {o : Operation} (ok : o.Admissible r) : (o.apply r).Consistent := by
  cases o with
  | make vertices atoms => exact h.make vertices atoms
  | add i => exact h.add ok.1 ok.2.1 ok.2.2
  | getOrMake vertices atoms => exact h.getOrMake vertices atoms
  | addChild p c => exact h.addChild ok.1 ok.2.1 ok.2.2.1 ok.2.2.2
  | remove key => exact h.remove key
  | setRoots => exact h.setRoots

/-- The way up from a listed node ends at a listed node without a parent. -/
theorem exists_top (hi : i ∈ r.members) :
    ∃ top ∈ r.members, (r.node top).parent = none ∧ Relation.ReflTransGen r.HasChild top i := by
  let Above : {i // i ∈ r.members} → {i // i ∈ r.members} → Prop :=
    fun p c => Relation.TransGen r.HasChild p c
  have hfinite : Finite {i // i ∈ r.members} := r.members.finite_toSet.to_subtype
  have htrans : IsTrans {i // i ∈ r.members} Above := ⟨fun _ _ _ => Relation.TransGen.trans⟩
  have hirrefl : Std.Irrefl Above := ⟨fun i => h.children_acyclic i⟩
  have hwf : WellFounded Above := Finite.wellFounded_of_trans_of_irrefl Above
  suffices hall : ∀ i : {i // i ∈ r.members}, ∃ top ∈ r.members,
      (r.node top).parent = none ∧ Relation.ReflTransGen r.HasChild top i from hall ⟨i, hi⟩
  intro i
  induction i using hwf.induction with
  | _ i ih =>
      obtain ⟨i, hi⟩ := i
      cases hparent : (r.node i).parent with
      | none => exact ⟨i, hi, hparent, .refl⟩
      | some p =>
          have hp := h.parent_mem i hi p hparent
          have hpi : r.HasChild p i := (h.hasChild_iff p hp i hi).mpr hparent
          obtain ⟨top, htop, hnone, hway⟩ := ih ⟨p, hp⟩ (.single hpi)
          exact ⟨top, htop, hnone, hway.tail hpi⟩

theorem mem_of_way (hp : p ∈ r.members) (hway : Relation.ReflTransGen r.HasChild p c) :
    c ∈ r.members := by
  induction hway with
  | refl => exact hp
  | tail _ hchild ih => exact h.child_mem _ ih _ hchild

/-- Ways up from a node lead to no two nodes without a parent. -/
theorem top_unique {top top' : Nat} (htop : top ∈ r.members) (htop' : top' ∈ r.members)
    (hnone : (r.node top).parent = none) (hnone' : (r.node top').parent = none)
    (hway : Relation.ReflTransGen r.HasChild top i)
    (hway' : Relation.ReflTransGen r.HasChild top' i) : top = top' := by
  have hno : ∀ {p c : Nat}, p ∈ r.members → r.HasChild p c → (r.node c).parent ≠ none := by
    intro p c hp hpc hc
    have hcp := h.hasParent_of_hasChild hp hpc
    rw [HasParent, hc] at hcp
    cases hcp
  -- a node on both ways is reached from one and the same parent
  induction hway with
  | refl =>
      rcases Relation.ReflTransGen.cases_tail hway' with heq | ⟨p, hp, hchild⟩
      · exact heq
      · exact absurd hnone (hno (h.mem_of_way htop' hp) hchild)
  | tail hm hchild ih =>
      have hp := h.mem_of_way htop hm
      rcases Relation.ReflTransGen.cases_tail hway' with rfl | ⟨p', hm', hchild'⟩
      · exact absurd hnone' (hno hp hchild)
      · have hp' := h.mem_of_way htop' hm'
        have hsome := h.hasParent_of_hasChild hp hchild
        have hsome' := h.hasParent_of_hasChild hp' hchild'
        rw [HasParent] at hsome hsome'
        rw [hsome, Option.some_inj] at hsome'
        exact ih (hsome' ▸ hm')

/-- Where the roots are all listed nodes without a parent, each listed node is under one. -/
theorem existsUnique_root
    (hroots : ∀ i, i ∈ r.roots ↔ i ∈ r.members ∧ (r.node i).parent = none) (hi : i ∈ r.members) :
    ∃! root, root ∈ r.roots ∧ Relation.ReflTransGen r.HasChild root i := by
  obtain ⟨top, htop, hnone, hway⟩ := h.exists_top hi
  refine ⟨top, ⟨(hroots top).mpr ⟨htop, hnone⟩, hway⟩, fun top' hmore => ?_⟩
  obtain ⟨htop', hnone'⟩ := (hroots top').mp hmore.1
  exact h.top_unique htop' htop hnone' hnone hmore.2 hway

end Consistent

/-! ### Runs -/

theorem Runs.consistent {ops : List Operation} (run : Runs Operation.Admissible ops r) :
    r.Consistent := by
  induction run with
  | nil => exact Consistent.empty
  | snoc o caller _ ok ih => exact (ih.apply ok).forget caller

/-- The roots are right after they have been set. -/
theorem Consistent.mem_roots_forget_setRoots (h : r.Consistent) (caller : List Nat) (i : Nat) :
    i ∈ (r.setRoots.forget caller).roots ↔ i ∈ (r.setRoots.forget caller).members ∧
      ((r.setRoots.forget caller).node i).parent = none := by
  change i ∈ r.members.filter _ ↔ i ∈ r.members ∧ _
  rw [List.mem_filter, Option.isNone_iff_eq_none]
  refine and_congr_right fun hi => ?_
  rw [h.setRoots.node_forget caller hi]
  rfl

/-- After any operations that may be done, the listed nodes have different keys, each that
of its node, and form a forest; and if the last of these sets the roots, each listed node
is under exactly one root. -/
theorem forest_of_runs {ops : List Operation} (run : Runs Operation.Admissible ops r) :
    r.Consistent ∧
    (ops.getLast? = some .setRoots → ∀ i ∈ r.members,
      ∃! root, root ∈ r.roots ∧ Relation.ReflTransGen r.HasChild root i) := by
  refine ⟨run.consistent, fun hlast i hi => run.consistent.existsUnique_root ?_ hi⟩
  cases run with
  | nil => cases hlast
  | snoc o caller run _ =>
      rw [List.getLast?_concat, Option.some_inj] at hlast
      rw [hlast]
      exact run.consistent.mem_roots_forget_setRoots caller

theorem not_way_of_children_eq_nil (hchildren : (r.node c).children = []) (hne : c ≠ p) :
    ¬ Relation.ReflTransGen r.HasChild c p := by
  intro hway
  rcases Relation.ReflTransGen.cases_head hway with rfl | ⟨j, hj, -⟩
  · exact hne rfl
  · rw [HasChild, hchildren] at hj
    cases hj

/-- The second one of four nodes in a row is removed. The third becomes a root and keeps its
child. -/
theorem forest_of_runs_middle :
    ∃ r : Register,
      Runs Operation.Admissible
        [.getOrMake ["a"] [], .getOrMake ["b"] [], .getOrMake ["c"] [], .getOrMake ["d"] [],
          .addChild 0 1, .addChild 1 2, .addChild 2 3, .remove (canonicalKey ["b"]), .setRoots] r ∧
      r.members = [0, 2, 3] ∧ r.roots = [0, 2] ∧ r.HasChild 2 3 ∧ r.HasParent 3 2 ∧
      r.Consistent ∧ ∃! root, root ∈ r.roots ∧ Relation.ReflTransGen r.HasChild root 3 := by
  have run₄ : Runs Operation.Admissible _ _ := .snoc (.getOrMake ["d"] []) []
    (.snoc (.getOrMake ["c"] []) [] (.snoc (.getOrMake ["b"] []) []
      (.snoc (.getOrMake ["a"] []) [] .nil trivial) trivial) trivial) trivial
  have run₅ := Runs.snoc (.addChild 0 1) [] run₄ ⟨by decide +kernel, by decide +kernel,
    by decide +kernel, not_way_of_children_eq_nil (by decide +kernel) (by decide)⟩
  have run₆ := Runs.snoc (.addChild 1 2) [] run₅ ⟨by decide +kernel, by decide +kernel,
    by decide +kernel, not_way_of_children_eq_nil (by decide +kernel) (by decide)⟩
  have run₇ := Runs.snoc (.addChild 2 3) [] run₆ ⟨by decide +kernel, by decide +kernel,
    by decide +kernel, not_way_of_children_eq_nil (by decide +kernel) (by decide)⟩
  have run := Runs.snoc .setRoots [] (.snoc (.remove (canonicalKey ["b"])) [] run₇ trivial) trivial
  obtain ⟨hconsistent, hroots⟩ := forest_of_runs run
  refine ⟨_, run, by decide +kernel, by decide +kernel, ?_, ?_, hconsistent,
    hroots rfl 3 (by decide +kernel)⟩
  · unfold HasChild
    decide +kernel
  · unfold HasParent
    decide +kernel

end Register

end Conjunctive
