import Conjunctive.Proofs.Evaluation.Failure
import Conjunctive.Proofs.Evaluation.Turns

/-!
# The order of the passes over a forest

The three passes are `Pass`es along their walks: `Forest.upPass` reads the children of a
node, `Forest.downPass` both ends of a link, and `Forest.joinPass` a node and its children.
The order in which the walks come to the nodes is all that their turns ask for, so no
evaluation comes to a node that was not visited.
-/

namespace Conjunctive

open Conjunctive.Hypergraph

/-! ### Steps that find the nodes -/

/-- An error that is not about a node that was not visited. -/
def EvaluationError.NotUnvisited (e : EvaluationError) : Prop := ∀ vs, e ≠ .unvisited vs

namespace EvaluationError

theorem notUnvisited_of_isLocal : ∀ e : EvaluationError, e.IsLocal → e.NotUnvisited := by
  rintro _ hlocal vs rfl
  exact hlocal

end EvaluationError

open EvaluationError

theorem findsNodes_iff {α : Type} {x : Except EvaluationError α} :
    FindsNodes x ↔ FailsWith NotUnvisited x := by
  constructor
  · rintro h _ herror vs rfl
    exact h vs herror
  · intro h vs herror
    exact h _ herror vs rfl

theorem NodeBatches.Has.finds {s : NodeBatches} {n : Hyperedge} (h : s.Has n) :
    FailsWith NotUnvisited (s.get n) := by
  rw [NodeBatches.get_eq h]
  exact .ok _

/-! ### What steps depend on -/

theorem NodeBatches.get_congr {s t : NodeBatches} {n : Hyperedge} (h : s.find? n = t.find? n) :
    s.get n = t.get n := by
  unfold get
  rw [h]

namespace Forest

theorem semijoins_congr {s t : NodeBatches} (b : Batch) {ns : List Hyperedge}
    (h : ∀ n ∈ ns, s.find? n = t.find? n) : semijoins s b ns = semijoins t b ns := by
  induction ns with
  | nil => rfl
  | cons n ns ih =>
      rw [List.forall_mem_cons] at h
      unfold semijoins
      rw [NodeBatches.get_congr h.1, ih h.2]

theorem joinNodes_congr (headVars : List String) {s t : NodeBatches} (b : Batch)
    {ns : List Hyperedge} (h : ∀ n ∈ ns, s.find? n = t.find? n) :
    joinNodes headVars s b ns = joinNodes headVars t b ns := by
  induction ns generalizing b with
  | nil => rfl
  | cons n ns ih =>
      rw [List.forall_mem_cons] at h
      unfold joinNodes
      rw [List.foldlM_cons, List.foldlM_cons, NodeBatches.get_congr h.1]
      exact congrArg _ (funext fun joined => ih joined h.2)

/-! ### The three passes -/

/-- Reducing a node by its children. -/
def upPass (f : Forest) : Pass Hyperedge where
  target n := n
  reads := f.children
  value s n := do
    let own ← scanAll n.atoms n.vertices
    match f.children n with
    | [] => pure own
    | children => do
      let reduced ← semijoins s own children
      liftBatch (Batch.intersect reduced)
  value_congr := by
    intro s t n h
    refine congrArg _ (funext fun own => ?_)
    split
    · rfl
    · rw [semijoins_congr own h]
  finds := by
    intro s n h
    rw [findsNodes_iff]
    have hlocal := notUnvisited_of_isLocal
    refine (FailsWith.scanAll hlocal _ _).bind fun own => ?_
    split
    · exact .ok own
    · exact (FailsWith.semijoins hlocal own fun c hc => (h c hc).finds).bind fun reduced =>
        .liftBatch hlocal _

/-- Reducing the lower end of a link by the upper end. -/
def downPass : Pass (Hyperedge × Hyperedge) where
  target l := l.2
  reads l := [l.2, l.1]
  value s l := do
    let child ← s.get l.2
    let parent ← s.get l.1
    liftBatch (child.semijoin parent)
  value_congr := by
    intro s t l h
    rw [NodeBatches.get_congr (h l.2 (by simp)), NodeBatches.get_congr (h l.1 (by simp))]
  finds := by
    intro s l h
    rw [findsNodes_iff]
    exact (h l.2 (by simp)).finds.bind fun child => (h l.1 (by simp)).finds.bind fun parent =>
      .liftBatch notUnvisited_of_isLocal _

/-- Joining a node with its children. -/
def joinPass (f : Forest) (headVars : List String) : Pass Hyperedge where
  target n := n
  reads n := n :: f.children n
  value s n := do
    let own ← s.get n
    joinNodes headVars s own (f.children n)
  value_congr := by
    intro s t n h
    rw [List.forall_mem_cons] at h
    rw [NodeBatches.get_congr h.1]
    exact congrArg _ (funext fun own => joinNodes_congr headVars own h.2)
  finds := by
    intro s n h
    rw [List.forall_mem_cons] at h
    rw [findsNodes_iff]
    exact h.1.finds.bind fun own =>
      .joinNodes notUnvisited_of_isLocal headVars own fun c hc => (h.2 c hc).finds

variable {f : Forest}

theorem reduceUp_eq_foldlM : f.reduceUp = f.bottomUp.foldlM f.upPass.turn .none := by
  have hturn : f.upPass.turn = f.reduceNode := by
    funext s n
    unfold reduceNode Pass.turn upPass
    dsimp only
    rw [bind_assoc]
    refine congrArg _ (funext fun own => ?_)
    cases f.children n with
    | nil => rfl
    | cons c cs =>
        dsimp only
        rw [bind_assoc]
  rw [hturn]
  rfl

theorem reduceDown_eq_foldlM (s : NodeBatches) :
    f.reduceDown s = f.topDown.foldlM downPass.turn s := by
  have hturn : downPass.turn = reduceLink := by
    funext s l
    unfold reduceLink Pass.turn downPass
    simp only [bind_assoc]
  rw [hturn]
  rfl

theorem joinUp_eq_foldlM (headVars : List String) (s : NodeBatches) :
    f.joinUp headVars s = f.innerBottomUp.foldlM (f.joinPass headVars).turn s := by
  have hturn : (f.joinPass headVars).turn = f.joinNode headVars := by
    funext s n
    unfold joinNode Pass.turn joinPass
    simp only [bind_assoc]
  rw [hturn]
  rfl

/-! ### The walks are orders for the passes -/

namespace Spans

variable {g : Hypergraph} {start up down joined : NodeBatches}

/-- An order of visits is one for a pass that reads the children of a node, and the node
itself if there is something to read. -/
theorem ordered_of_visits (h : f.Spans g) {p : Pass Hyperedge} (htarget : ∀ n, p.target n = n)
    {done order : List Hyperedge} (hdone : done.Nodup) (hmem : ∀ n ∈ done ++ order, n ∈ g)
    (hvisits : f.Visits done order) (hstart : ∀ n ∈ done, start.Has n)
    (hreads : ∀ n ∈ order, ∀ m ∈ p.reads n, m = n ∧ start.Has n ∨ m ∈ f.children n) :
    p.Ordered order start := by
  have hnodup := hvisits.nodup_append hdone
  have hchildren : ∀ {before n after}, order = before ++ n :: after →
      ∀ m ∈ p.reads n, m = n ∧ start.Has n ∨ m ∈ done ++ before := by
    rintro before n after rfl m hm
    obtain ⟨-, -, hc, -⟩ := hvisits.of_append
    exact (hreads n (by simp) m hm).imp_right (hc m)
  constructor
  · simp only [htarget]
    refine List.Nodup.map_on (fun m hm n hn heq => ?_) (List.nodup_append.mp hnodup).2.1
    exact h.distinct.eq_of_vertices_eq (hmem m (List.mem_append_right _ hm))
      (hmem n (List.mem_append_right _ hn)) heq
  · intro before n after hsplit m hm
    rcases hchildren hsplit m hm with ⟨rfl, hhas⟩ | hm
    · exact Or.inl hhas
    · rcases List.mem_append.mp hm with hm | hm
      · exact Or.inl (hstart m hm)
      · exact Or.inr ⟨m, hm, htarget m⟩
  · intro before n after hsplit m hm hne k hk
    rw [htarget] at hne ⊢
    have hbefore := (hchildren hsplit m hm).resolve_left fun hself => hne hself.1
    rw [hsplit, ← List.append_assoc] at hnodup hmem
    refine h.vertices_ne (hmem k (List.mem_append_right _ hk))
      (hmem m (List.mem_append_left _ hbefore)) fun hkm => ?_
    exact (List.nodup_append.mp hnodup).2.2 m hbefore k hk hkm.symm

theorem ordered_bottomUp (h : f.Spans g) : f.upPass.Ordered f.bottomUp .none := by
  obtain ⟨hvisits, hall⟩ := h.visits_bottomUp
  exact h.ordered_of_visits (fun _ => rfl) List.nodup_nil (fun n hn => (hall n).mp hn) hvisits
    (List.forall_mem_nil _) fun _ _ _ hm => Or.inr hm

theorem ordered_topDown (h : f.Spans g) (hstart : ∀ n ∈ g, start.Has n) :
    downPass.Ordered f.topDown start := by
  obtain ⟨hdescends, hall⟩ := h.descends_topDown
  have hroots : f.roots.Nodup := h.nodup_nodes.filter _
  have hnodup := hdescends.nodup_append hroots
  have hlower : ∀ l ∈ f.topDown, l.2 ∈ g := fun l hl =>
    (hall l.2).mp (List.mem_append_right _ (List.mem_map_of_mem hl))
  have hupper : ∀ {before l after}, f.topDown = before ++ l :: after →
      l.1 ∈ f.roots ++ before.map Prod.snd := by
    intro before l after hsplit
    rw [hsplit] at hdescends
    exact hdescends.of_append.2.2.1
  have hreads : ∀ {before l after}, f.topDown = before ++ l :: after →
      ∀ m ∈ downPass.reads l, m = l.2 ∨ m ∈ f.roots ++ before.map Prod.snd := by
    intro before l after hsplit m hm
    rcases List.mem_cons.mp hm with rfl | hm
    · exact Or.inl rfl
    · rw [List.mem_singleton.mp hm]
      exact Or.inr (hupper hsplit)
  have hmem : ∀ {before l after}, f.topDown = before ++ l :: after →
      ∀ m ∈ f.roots ++ before.map Prod.snd, m ∈ g := by
    intro before l after hsplit m hm
    refine (hall m).mp ?_
    rw [hsplit, List.map_append, ← List.append_assoc]
    exact List.mem_append_left _ hm
  constructor
  · have hlinks := (List.nodup_append.mp hnodup).2.1
    change (f.topDown.map ((fun n => n.vertices) ∘ Prod.snd)).Nodup
    rw [← List.map_map]
    refine List.Nodup.map_on (fun m hm n hn heq => ?_) hlinks
    exact h.distinct.eq_of_vertices_eq ((hall m).mp (List.mem_append_right _ hm))
      ((hall n).mp (List.mem_append_right _ hn)) heq
  · intro before l after hsplit m hm
    refine Or.inl (hstart m ?_)
    rcases hreads hsplit m hm with rfl | hm
    · exact hlower l (by rw [hsplit]; simp)
    · exact hmem hsplit m hm
  · intro before l after hsplit m hm hne k hk
    have hbefore := (hreads hsplit m hm).resolve_left hne
    have hkg : k.2 ∈ g := hlower k (by rw [hsplit]; exact List.mem_append_right _ hk)
    refine h.vertices_ne hkg (hmem hsplit m hbefore) fun hkm => ?_
    rw [hsplit, List.map_append, ← List.append_assoc] at hnodup
    exact (List.nodup_append.mp hnodup).2.2 m hbefore k.2 (List.mem_map_of_mem hk) hkm.symm

theorem ordered_innerBottomUp (h : f.Spans g) (headVars : List String)
    (hstart : ∀ n ∈ g, start.Has n) : (f.joinPass headVars).Ordered f.innerBottomUp start := by
  obtain ⟨hvisits, hall⟩ := h.visits_innerBottomUp
  refine h.ordered_of_visits (fun _ => rfl) h.nodup_leaves (fun n hn => (hall n).mp hn) hvisits
    (fun n hn => hstart n (h.mem_leaves_iff.mp hn).1) fun n hn m hm => ?_
  rcases List.mem_cons.mp hm with rfl | hm
  · exact Or.inl ⟨rfl, hstart m ((hall m).mp (List.mem_append_right _ hn))⟩
  · exact Or.inr hm

/-! ### All nodes have batches -/

theorem has_up (h : f.Spans g) (hup : f.reduceUp = .ok up) : ∀ n ∈ g, up.Has n := by
  intro n hn
  rw [reduceUp_eq_foldlM] at hup
  exact Pass.has_foldlM hup (Or.inr ⟨n, (h.visits_bottomUp.2 n).mpr hn, rfl⟩)

theorem has_down (hup : ∀ n ∈ g, up.Has n) (hdown : f.reduceDown up = .ok down) :
    ∀ n ∈ g, down.Has n := by
  intro n hn
  rw [reduceDown_eq_foldlM] at hdown
  exact Pass.has_foldlM hdown (Or.inl (hup n hn))

theorem has_joined {headVars : List String} (hdown : ∀ n ∈ g, down.Has n)
    (hjoined : f.joinUp headVars down = .ok joined) : ∀ n ∈ g, joined.Has n := by
  intro n hn
  rw [joinUp_eq_foldlM] at hjoined
  exact Pass.has_foldlM hjoined (Or.inl (hdown n hn))

theorem findsNodes_reduceUp (h : f.Spans g) : FindsNodes f.reduceUp := by
  rw [reduceUp_eq_foldlM]
  exact h.ordered_bottomUp.finds

theorem findsNodes_reduceDown (h : f.Spans g) (hup : ∀ n ∈ g, up.Has n) :
    FindsNodes (f.reduceDown up) := by
  rw [reduceDown_eq_foldlM]
  exact (h.ordered_topDown hup).finds

theorem findsNodes_joinUp (h : f.Spans g) (headVars : List String) (hdown : ∀ n ∈ g, down.Has n) :
    FindsNodes (f.joinUp headVars down) := by
  rw [joinUp_eq_foldlM]
  exact (h.ordered_innerBottomUp headVars hdown).finds

/-- An evaluation on the forest finds all nodes. -/
theorem findsNodes_onForest (h : f.Spans g) (q : Query) (distinct : Bool) :
    FindsNodes (Evaluation.onForest q distinct f).answer := by
  have hroots : ∀ {s : NodeBatches}, (∀ n ∈ g, s.Has n) →
      ∀ n ∈ f.roots, FailsWith NotUnvisited (s.get n) :=
    fun hhas n hn => (hhas n (h.mem_roots_iff.mp hn).1).finds
  rw [findsNodes_iff]
  refine .onForest notUnvisited_of_isLocal (findsNodes_iff.mp h.findsNodes_reduceUp) ?_ ?_ ?_ ?_
  · exact fun up hup => hroots (h.has_up hup)
  · exact fun up hup => findsNodes_iff.mp (h.findsNodes_reduceDown (h.has_up hup))
  · intro up down hup hdown
    exact findsNodes_iff.mp (h.findsNodes_joinUp _ (has_down (h.has_up hup) hdown))
  · intro up down joined hup hdown hjoined
    exact hroots (has_joined (has_down (h.has_up hup) hdown) hjoined)

end Spans

/-! ### Each node in its turn -/

/-- Reducing from below ends. It comes once to every node, after its children; the node has
no batch then, and the children have those they keep. -/
structure ReducesUp (f : Forest) : Prop where
  eq_foldlM : f.reduceUp = f.bottomUp.foldlM f.upPass.turn .none
  ends : f.Climbs f.leaves [] f.bottomUp
  nodup : f.bottomUp.Nodup
  mem_iff : ∀ n, n ∈ f.bottomUp ↔ n ∈ f.nodes
  after_children : ∀ before n after, f.bottomUp = before ++ n :: after →
    ∀ c ∈ f.children n, c ∈ before
  finds : FindsNodes f.reduceUp
  inTurn : ∀ up, f.reduceUp = .ok up → f.upPass.InTurn f.bottomUp .none up

/-- Reducing from above ends. It comes once to every node but the roots, by the link from
its parent and after the parent; the node has the batch of the pass before then, and the
parent has the one it keeps. Roots are left alone. -/
structure ReducesDown (f : Forest) : Prop where
  eq_foldlM : ∀ s, f.reduceDown s = f.topDown.foldlM downPass.turn s
  ends : f.Sinks f.roots f.topDown
  nodup : (f.topDown.map Prod.snd).Nodup
  mem_iff : ∀ n, n ∈ f.topDown.map Prod.snd ↔ n ∈ f.nodes ∧ n ∉ f.roots
  parent?_eq : ∀ l ∈ f.topDown, f.parent? l.2 = some l.1
  after_parent : ∀ before l after, f.topDown = before ++ l :: after →
    l.1 ∈ f.roots ∨ l.1 ∈ before.map Prod.snd
  finds : ∀ up, f.reduceUp = .ok up → FindsNodes (f.reduceDown up)
  inTurn : ∀ up down, f.reduceUp = .ok up → f.reduceDown up = .ok down →
    downPass.InTurn f.topDown up down ∧ ∀ n ∈ f.roots, down.find? n = up.find? n

/-- Joining from below ends. It comes once to every node with children, after those of them
that have children; the node has the batch of the pass before then, and the children have
those they keep. Leaves are left alone. -/
structure JoinsUp (f : Forest) : Prop where
  eq_foldlM : ∀ headVars s,
    f.joinUp headVars s = f.innerBottomUp.foldlM (f.joinPass headVars).turn s
  ends : f.Climbs ((f.leaves.filterMap (f.readyParent? f.leaves)).foldl addNode []) f.leaves
    f.innerBottomUp
  nodup : f.innerBottomUp.Nodup
  mem_iff : ∀ n, n ∈ f.innerBottomUp ↔ n ∈ f.nodes ∧ f.children n ≠ []
  after_children : ∀ before n after, f.innerBottomUp = before ++ n :: after →
    ∀ c ∈ f.children n, f.children c ≠ [] → c ∈ before
  finds : ∀ up down headVars, f.reduceUp = .ok up → f.reduceDown up = .ok down →
    FindsNodes (f.joinUp headVars down)
  inTurn : ∀ up down headVars joined, f.reduceUp = .ok up → f.reduceDown up = .ok down →
    f.joinUp headVars down = .ok joined →
      (f.joinPass headVars).InTurn f.innerBottomUp down joined ∧
        ∀ n ∈ f.leaves, joined.find? n = down.find? n

namespace Spans

variable {g : Hypergraph}

theorem reducesUp (h : f.Spans g) : f.ReducesUp where
  eq_foldlM := reduceUp_eq_foldlM
  ends := h.climbs_bottomUp
  nodup := h.visits_bottomUp.1.nodup_append List.nodup_nil
  mem_iff n := (h.visits_bottomUp.2 n).trans h.mem_nodes_iff.symm
  after_children before n after hsplit c hc := by
    have hvisits := h.visits_bottomUp.1
    rw [hsplit] at hvisits
    exact hvisits.of_append.2.2.1 c hc
  finds := h.findsNodes_reduceUp
  inTurn up hup := by
    rw [reduceUp_eq_foldlM] at hup
    exact h.ordered_bottomUp.inTurn hup

theorem reducesDown (h : f.Spans g) : f.ReducesDown := by
  obtain ⟨hdescends, hall⟩ := h.descends_topDown
  have hnodup := List.nodup_append.mp (hdescends.nodup_append (h.nodup_nodes.filter _))
  constructor
  · exact reduceDown_eq_foldlM
  · exact h.sinks_topDown
  · exact hnodup.2.1
  · intro n
    rw [h.mem_nodes_iff, ← hall n, List.mem_append]
    constructor
    · intro hn
      exact ⟨Or.inr hn, fun hroot => hnodup.2.2 n hroot n hn rfl⟩
    · rintro ⟨hn, hroot⟩
      exact hn.resolve_left hroot
  · intro l hl
    obtain ⟨before, after, hsplit⟩ := List.append_of_mem hl
    rw [hsplit] at hdescends
    have hlink := hdescends.of_append.2.1
    exact (h.parent?_eq_some_iff (h.mem_of_link hlink).1).mpr hlink
  · intro before l after hsplit
    rw [hsplit] at hdescends
    exact List.mem_append.mp hdescends.of_append.2.2.1
  · intro up hup
    exact h.findsNodes_reduceDown (h.has_up hup)
  · intro up down hup hdown
    rw [reduceDown_eq_foldlM] at hdown
    refine ⟨(h.ordered_topDown (h.has_up hup)).inTurn hdown, fun n hn => ?_⟩
    refine Pass.find?_foldlM hdown fun l hl => ?_
    have hl' : l.2 ∈ f.topDown.map Prod.snd := List.mem_map_of_mem hl
    refine h.vertices_ne ((hall l.2).mp (List.mem_append_right _ hl'))
      ((hall n).mp (List.mem_append_left _ hn)) fun heq => ?_
    exact hnodup.2.2 n hn l.2 hl' heq.symm

theorem joinsUp (h : f.Spans g) : f.JoinsUp := by
  obtain ⟨hvisits, hall⟩ := h.visits_innerBottomUp
  have hnodup := List.nodup_append.mp (hvisits.nodup_append h.nodup_leaves)
  constructor
  · exact joinUp_eq_foldlM
  · exact h.climbs_innerBottomUp
  · exact hnodup.2.1
  · intro n
    rw [h.mem_nodes_iff]
    constructor
    · intro hn
      have hg : n ∈ g := (hall n).mp (List.mem_append_right _ hn)
      exact ⟨hg, fun hleaf => hnodup.2.2 n (h.mem_leaves_iff.mpr ⟨hg, hleaf⟩) n hn rfl⟩
    · rintro ⟨hg, hinner⟩
      refine (List.mem_append.mp ((hall n).mpr hg)).resolve_left fun hleaf => ?_
      exact hinner (h.mem_leaves_iff.mp hleaf).2
  · intro before n after hsplit c hc hinner
    rw [hsplit] at hvisits
    refine (List.mem_append.mp (hvisits.of_append.2.2.1 c hc)).resolve_left fun hleaf => ?_
    exact hinner (h.mem_leaves_iff.mp hleaf).2
  · intro up down headVars hup hdown
    exact h.findsNodes_joinUp headVars (has_down (h.has_up hup) hdown)
  · intro up down headVars joined hup hdown hjoined
    rw [joinUp_eq_foldlM] at hjoined
    have hhas := has_down (h.has_up hup) hdown
    refine ⟨(h.ordered_innerBottomUp headVars hhas).inTurn hjoined, fun n hn => ?_⟩
    refine Pass.find?_foldlM hjoined fun m hm => ?_
    refine h.vertices_ne ((hall m).mp (List.mem_append_right _ hm))
      ((hall n).mp (List.mem_append_left _ hn)) fun heq => ?_
    exact hnodup.2.2 n hn m hm heq.symm

end Spans

end Forest

namespace Query

/-- On the forest of a query each pass comes to its nodes once and in order, ends, and
reads neither a node without a batch nor one whose batch of the pass is still to come. If
the atoms of the query are bound to relations whose cells can be keys, all three passes
have a result. -/
theorem passes_in_turn {q : Query} {f : Forest} (hf : (ofQuery q).forest? = some f) :
    f.ReducesUp ∧ f.ReducesDown ∧ f.JoinsUp ∧
      (∀ distinct, FindsNodes (q.evaluate distinct)) ∧
      ((∀ a ∈ q.body, a.Ready) → ∃ up down joined, f.reduceUp = .ok up ∧
        f.reduceDown up = .ok down ∧ f.joinUp q.head.vars down = .ok joined) := by
  have h := Forest.spans_of_forest? (merges_ofQuery q).distinct hf
  refine ⟨h.reducesUp, h.reducesDown, h.joinsUp, fun distinct vs herror => ?_, fun hready => ?_⟩
  · have hleft : (ofQuery q).eliminate.left.isEmpty = true := by
      by_contra hleft
      rw [forest?, if_neg hleft] at hf
      cases hf
    rw [forest?, if_pos hleft] at hf
    dsimp only [evaluate, Evaluation.run] at herror
    rw [if_pos hleft, Option.some.inj hf] at herror
    split at herror
    case h_1 e hground =>
      have hatoms := FailsWith.groundAtomsHold notUnvisited_of_isLocal q.body
      exact absurd rfl (hatoms.of_passed hground herror vs)
    case h_2 => exact h.findsNodes_onForest q distinct vs herror
    case h_3 => split_ifs at herror
  · obtain ⟨up, down, joined, c, hpasses, -⟩ := h.exists_passes hready
    exact ⟨up, down, joined, hpasses.up_eq, hpasses.down_eq, hpasses.join_eq⟩

theorem passes_in_turn_twoTrees :
    ∃ f up down joined, (ofQuery twoTrees).forest? = some f ∧
      f.ReducesUp ∧ f.ReducesDown ∧ f.JoinsUp ∧ f.reduceUp = .ok up ∧
      f.reduceDown up = .ok down ∧ f.joinUp twoTrees.head.vars down = .ok joined := by
  obtain ⟨f, hf⟩ := Option.isSome_iff_exists.mp
    (by cbv : (ofQuery twoTrees).forest?.isSome = true)
  obtain ⟨hup, hdown, hjoin, -, hpasses⟩ := passes_in_turn hf
  obtain ⟨up, down, joined, hrun⟩ := hpasses ready_twoTrees
  exact ⟨f, up, down, joined, hf, hup, hdown, hjoin, hrun⟩

end Query

end Conjunctive
