import Conjunctive.Proofs.Forest.Descent
import Conjunctive.Proofs.Forest.Walk

/-!
# The end of walks

A walk goes on from level to level until a level is empty. `f.Climbs level done order` and
`f.Sinks level order` say this without a bound on the levels: the walk that starts with a
level comes to an empty one, and takes an order on the way. The bounded walks are such
walks, so they do not end for want of levels: when the bound is used up, all nodes are done,
and the level is empty.
-/

namespace Conjunctive

open Conjunctive.Hypergraph

namespace Forest

/-- The walk from below that starts with a level, some nodes being done, ends after an
order. -/
inductive Climbs (f : Forest) : List Hyperedge → List Hyperedge → List Hyperedge → Prop
  | done (done : List Hyperedge) : Climbs f [] done []
  | level {level done order : List Hyperedge} (hne : level ≠ [])
      (rest : Climbs f (f.visitLevel done [] level).2 (f.visitLevel done [] level).1 order) :
      Climbs f level done (level ++ order)

/-- The walk from above that starts with a level ends after an order of links. -/
inductive Sinks (f : Forest) : List Hyperedge → List (Hyperedge × Hyperedge) → Prop
  | done : Sinks f [] []
  | level {level : List Hyperedge} {order : List (Hyperedge × Hyperedge)} (hne : level ≠ [])
      (rest : Sinks f (level.flatMap f.children) order) :
      Sinks f level ((level.flatMap fun n => (f.children n).map fun c => (n, c)) ++ order)

namespace Spans

variable {f : Forest} {g : Hypergraph} {fuel : Nat} {done above level : List Hyperedge}

/-- No node is left for a level if as many are done as there are. -/
theorem eq_nil_of_length_le (hmem : ∀ n ∈ done ++ level, n ∈ g) (hnodup : (done ++ level).Nodup)
    (hlength : List.length g ≤ done.length) : level = [] := by
  have hle := (List.subperm_of_subset hnodup hmem).length_le
  rw [List.length_append] at hle
  exact List.eq_nil_of_length_eq_zero (by omega)

theorem climbs_bottomUpFrom (h : f.Spans g) (hfrontier : Frontier f g done level)
    (hfuel : List.length g ≤ done.length + fuel) :
    f.Climbs level done (f.bottomUpFrom fuel level done) := by
  induction fuel generalizing done level with
  | zero =>
      rw [eq_nil_of_length_le hfrontier.mem hfrontier.nodup hfuel]
      exact .done done
  | succ fuel ih =>
      rw [bottomUpFrom]
      split_ifs with hempty
      · rw [List.isEmpty_iff.mp hempty]
        exact .done done
      · have hne : level ≠ [] := fun hnil => hempty (List.isEmpty_iff.mpr hnil)
        obtain ⟨hfst, -⟩ := h.visitLevel_spec hfrontier.mem (List.forall_mem_nil _)
        refine .level hne ?_
        have hlevel := List.length_pos_iff.mpr hne
        have hbound : List.length g ≤ (done ++ level).length + fuel := by
          rw [List.length_append]
          omega
        rw [hfst]
        exact ih (h.frontier_visitLevel hfrontier) hbound

theorem sinks_topDownFrom (h : f.Spans g) (hc : Canopy f g above level)
    (hfuel : List.length g ≤ above.length + fuel) : f.Sinks level (f.topDownFrom fuel level) := by
  induction fuel generalizing above level with
  | zero =>
      rw [eq_nil_of_length_le hc.mem hc.nodup hfuel]
      exact .done
  | succ fuel ih =>
      rw [topDownFrom]
      split_ifs with hempty
      · rw [List.isEmpty_iff.mp hempty]
        exact .done
      · have hne : level ≠ [] := fun hnil => hempty (List.isEmpty_iff.mpr hnil)
        have hsnd : (level.flatMap fun n => (f.children n).map fun c => (n, c)).map Prod.snd =
            level.flatMap f.children := by
          simp only [List.map_flatMap, List.map_map]
          exact List.flatMap_congr fun n _ => List.map_id _
        have hlevel := List.length_pos_iff.mpr hne
        have hbound : List.length g ≤ (above ++ level).length + fuel := by
          rw [List.length_append]
          omega
        refine .level hne ?_
        rw [hsnd]
        exact ih (hc.step h) hbound

/-- The walk from the leaves ends. -/
theorem climbs_bottomUp (h : f.Spans g) : f.Climbs f.leaves [] f.bottomUp :=
  h.climbs_bottomUpFrom h.frontier_leaves (by rw [h.perm_nodes.length_eq]; omega)

/-- The walk from the parents of leaves only ends. -/
theorem climbs_innerBottomUp (h : f.Spans g) :
    f.Climbs ((f.leaves.filterMap (f.readyParent? f.leaves)).foldl addNode []) f.leaves
      f.innerBottomUp :=
  h.climbs_bottomUpFrom h.frontier_readyParents (by rw [h.perm_nodes.length_eq]; omega)

/-- The walk from the roots ends. -/
theorem sinks_topDown (h : f.Spans g) : f.Sinks f.roots f.topDown :=
  h.sinks_topDownFrom h.canopy_roots (by rw [h.perm_nodes.length_eq]; omega)

end Spans

end Forest

end Conjunctive
