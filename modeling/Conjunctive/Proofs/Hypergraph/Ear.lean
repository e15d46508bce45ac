import Conjunctive.Hypergraph.Ear
import Conjunctive.Proofs.Hypergraph.Merging
import Mathlib.Data.Set.Image

/-!
# The ear test is exact

`IsEar e others` says what an ear is without saying how to find one: whatever
`e` shares with the others lies in a single one of them, or nothing is shared.
The scan for a witness drops a candidate only when it fails to contain a shared
vertex, so it ends at the first candidate that contains all of them.
-/

namespace Conjunctive

/-- A set is an ear among others if one of them contains everything that it
shares with any of them, or if it shares nothing. -/
def IsEar {α : Type*} (e : Set α) (others : Set (Set α)) : Prop :=
  (∀ v ∈ e, ∀ f ∈ others, v ∉ f) ∨
    ∃ w ∈ others, ∀ v ∈ e, (∃ f ∈ others, v ∈ f) → v ∈ w

/-- The sets of vertices of some hyperedges. -/
def Hypergraph.edgeSets (g : Hypergraph) : Set (Set String) := Hyperedge.vertexSet '' {e | e ∈ g}

namespace Ear

theorem isShared_iff {others : List Hyperedge} {v : String} :
    isShared others v = true ↔ ∃ f ∈ others, v ∈ f.vertices := by
  simp [isShared, Hyperedge.contains_iff]

/-- Whether an edge contains those of the given vertices that are shared. -/
def covers (others : List Hyperedge) (vertices : List String) (w : Hyperedge) : Bool :=
  vertices.all fun u => !isShared others u || w.contains u

theorem covers_cons {others : List Hyperedge} {v : String} {vs : List String} {w : Hyperedge} :
    covers others (v :: vs) w = ((!isShared others v || w.contains v) && covers others vs w) := rfl

theorem find?_covers_of_pick?_eq_none {others candidates : List Hyperedge} {v : String}
    {vs : List String} (hv : isShared others v = true) (h : pick? v candidates = none) :
    candidates.find? (covers others (v :: vs)) = none := by
  induction candidates with
  | nil => rfl
  | cons c cs ih =>
      simp only [pick?] at h
      split_ifs at h with hc
      have hcs : pick? v cs = none := by simpa using h
      have hcover : covers others (v :: vs) c = false := by simp [covers_cons, hv, hc]
      rw [List.find?_cons, hcover]
      exact ih hcs

/-- The picked candidate comes first among those that contain the vertex, so it
is the first that covers if it covers at all, and is in no one's way else. -/
theorem find?_covers_of_pick? {others candidates rest : List Hyperedge} {v : String}
    {vs : List String} {w : Hyperedge} (hv : isShared others v = true)
    (h : pick? v candidates = some (w, rest)) :
    candidates.find? (covers others (v :: vs)) =
      if covers others vs w then some w else rest.find? (covers others (v :: vs)) := by
  induction candidates generalizing rest with
  | nil => simp [pick?] at h
  | cons c cs ih =>
      simp only [pick?] at h
      split_ifs at h with hc
      · cases h
        rw [List.find?_cons, covers_cons, hv, hc]
        cases covers others vs w <;> rfl
      · obtain ⟨⟨w', rest'⟩, hpick, heq⟩ := Option.map_eq_some_iff.mp h
        cases heq
        have hcover : covers others (v :: vs) c = false := by simp [covers_cons, hv, hc]
        rw [List.find?_cons, hcover, ih hpick, List.find?_cons, hcover]

/-- What a scan without a witness has to find: the first candidate that contains all
shared vertices, or nothing if none is shared. -/
def firstCovering (others candidates : List Hyperedge) (vertices : List String) :
    Option (Option Hyperedge) :=
  if vertices.any (isShared others) then
    (candidates.find? (covers others vertices)).map some
  else some none

section FirstCovering

variable {others candidates rest : List Hyperedge} {v : String} {vs : List String} {w : Hyperedge}

theorem covers_cons_of_not_shared (hv : ¬ isShared others v = true) :
    covers others (v :: vs) = covers others vs := by
  funext w
  simp [covers_cons, hv]

theorem firstCovering_of_not_shared (hv : ¬ isShared others v = true) :
    firstCovering others candidates (v :: vs) = firstCovering others candidates vs := by
  rw [firstCovering, firstCovering, covers_cons_of_not_shared hv, List.any_cons,
    Bool.eq_false_iff.mpr hv, Bool.false_or]

theorem firstCovering_of_shared (hv : isShared others v = true) :
    firstCovering others candidates (v :: vs) =
      (candidates.find? (covers others (v :: vs))).map some := by
  rw [firstCovering, List.any_cons, hv, Bool.true_or, if_pos rfl]

/-- No candidate is left for a shared vertex. -/
theorem firstCovering_of_pick?_eq_none (hv : isShared others v = true)
    (h : pick? v candidates = none) : firstCovering others candidates (v :: vs) = none := by
  rw [firstCovering_of_shared hv, find?_covers_of_pick?_eq_none hv h, Option.map_none]

/-- The witness that is taken is found unless it misses a later shared vertex; then the
scan goes back without it. -/
theorem firstCovering_of_pick? (hv : isShared others v = true)
    (h : pick? v candidates = some (w, rest)) :
    firstCovering others candidates (v :: vs) =
      if covers others vs w then some (some w) else firstCovering others rest (v :: vs) := by
  rw [firstCovering_of_shared hv, firstCovering_of_shared hv, find?_covers_of_pick? hv h]
  split_ifs <;> rfl

end FirstCovering

/-- A witness that is held is found if it contains the shared vertices to come. If not,
it comes down to a scan from where it was taken, without it among the candidates. -/
theorem scan_eq (others candidates : List Hyperedge) (held : Option (Hyperedge × List String))
    (vertices : List String) :
    scan others candidates held vertices =
      match held with
      | none => firstCovering others candidates vertices
      | some (w, resume) =>
        if covers others vertices w then some (some w)
        else firstCovering others candidates resume := by
  -- one case for each way the scan goes on: it ends, passes a vertex with or without a
  -- witness, drops the witness, finds no candidate, or takes one
  fun_induction scan others candidates held vertices with
  | case1 candidates held => cases held <;> rfl
  | case2 candidates v vs hv w resume hw ih =>
      rw [ih]
      simp only [covers_cons, hw, Bool.or_true, Bool.true_and]
  | case3 candidates v vs hv w resume hw ih =>
      have hcover : ¬ covers others (v :: vs) w = true := by simp [covers_cons, hv, hw]
      exact ih.trans (if_neg hcover).symm
  | case4 candidates v vs hv hpick => exact (firstCovering_of_pick?_eq_none hv hpick).symm
  | case5 candidates v vs hv w rest hpick _ ih =>
      exact ih.trans (firstCovering_of_pick? hv hpick).symm
  | case6 candidates held v vs hv ih =>
      rw [ih, covers_cons_of_not_shared hv]
      cases held with
      | none => exact (firstCovering_of_not_shared hv).symm
      | some _ => rfl

end Ear

open Ear

/-- The ear test needs no witness if nothing is shared, and else finds the first
edge that contains all shared vertices. -/
theorem ear?_eq (vertices : List String) (others : List Hyperedge) :
    ear? vertices others = firstCovering others others vertices :=
  scan_eq others others none vertices

/-- What a removed ear and its witness are to the other edges. -/
def Hyperedge.EarWith (e : Hyperedge) (others : List Hyperedge) : Option Hyperedge → Prop
  | none => ∀ v ∈ e.vertices, ∀ f ∈ others, v ∉ f.vertices
  | some w => w ∈ others ∧ ∀ v ∈ e.vertices, (∃ f ∈ others, v ∈ f.vertices) → v ∈ w.vertices

theorem covers_iff {others : List Hyperedge} {vertices : List String} {w : Hyperedge} :
    covers others vertices w = true ↔
      ∀ v ∈ vertices, (∃ f ∈ others, v ∈ f.vertices) → v ∈ w.vertices := by
  rw [covers, List.all_eq_true]
  apply forall₂_congr
  intro v _
  rw [← isShared_iff, ← Hyperedge.contains_iff]
  cases isShared others v <;> simp

theorem earWith_of_ear? {e : Hyperedge} {others : List Hyperedge} {w : Option Hyperedge}
    (h : ear? e.vertices others = some w) : e.EarWith others w := by
  rw [ear?_eq, firstCovering] at h
  split_ifs at h with hany
  · obtain ⟨u, hu, rfl⟩ := Option.map_eq_some_iff.mp h
    exact ⟨List.mem_of_find?_eq_some hu, covers_iff.mp (List.find?_some hu)⟩
  · cases h
    intro v hv f hf hvf
    exact hany (List.any_eq_true.mpr ⟨v, hv, isShared_iff.mpr ⟨f, hf, hvf⟩⟩)

theorem isEar_of_earWith {e : Hyperedge} {others : List Hyperedge} {w : Option Hyperedge}
    (h : e.EarWith others w) : IsEar e.vertexSet (Hypergraph.edgeSets others) := by
  cases w with
  | none =>
      left
      rintro v hv s ⟨f, hf, rfl⟩
      exact h v hv f hf
  | some w =>
      right
      refine ⟨w.vertexSet, ⟨w, h.1, rfl⟩, ?_⟩
      rintro v hv ⟨s, ⟨f, hf, rfl⟩, hvf⟩
      exact h.2 v hv ⟨f, hf, hvf⟩

/-- The ear test fails on what is no ear, and only on that. -/
theorem ear?_eq_none_iff {e : Hyperedge} {others : List Hyperedge} :
    ear? e.vertices others = none ↔ ¬ IsEar e.vertexSet (Hypergraph.edgeSets others) := by
  constructor
  · intro h
    rw [ear?_eq, firstCovering] at h
    split_ifs at h with hany
    have hnone : others.find? (covers others e.vertices) = none := by simpa using h
    obtain ⟨v, hv, hshared⟩ := List.any_eq_true.mp hany
    obtain ⟨f, hf, hvf⟩ := isShared_iff.mp hshared
    rintro (hexclusive | ⟨s, ⟨w, hw, rfl⟩, hcover⟩)
    · exact hexclusive v hv _ ⟨f, hf, rfl⟩ hvf
    · refine List.find?_eq_none.mp hnone w hw (covers_iff.mpr ?_)
      rintro u hu ⟨f, hf, huf⟩
      exact hcover u hu ⟨_, ⟨f, hf, rfl⟩, huf⟩
  · intro h
    cases hear : ear? e.vertices others with
    | none => rfl
    | some w => exact absurd (isEar_of_earWith (earWith_of_ear? hear)) h

/-! ### What the ear test tells -/

/-- A hyperedge has all the vertices of a list that occur in any of the others. -/
def Hyperedge.HasShared (w : Hyperedge) (vertices : List String) (others : List Hyperedge) : Prop :=
  ∀ v ∈ vertices, (∃ f ∈ others, v ∈ f.vertices) → v ∈ w.vertices

theorem any_isShared_iff {vertices : List String} {others : List Hyperedge} :
    vertices.any (isShared others) = true ↔ ∃ v ∈ vertices, ∃ f ∈ others, v ∈ f.vertices := by
  simp only [List.any_eq_true, isShared_iff]

theorem find?_covers_eq_some_iff {vertices : List String} {others : List Hyperedge}
    {w : Hyperedge} :
    others.find? (covers others vertices) = some w ↔
      ∃ before after, others = before ++ w :: after ∧ w.HasShared vertices others ∧
        ∀ f ∈ before, ¬ f.HasShared vertices others := by
  rw [List.find?_eq_some_iff_append, covers_iff]
  simp only [Bool.not_eq_true', ← Bool.not_eq_true, covers_iff]
  constructor
  · rintro ⟨hw, before, after, heq, hbefore⟩
    exact ⟨before, after, heq, hw, hbefore⟩
  · rintro ⟨before, after, heq, hw, hbefore⟩
    exact ⟨hw, before, after, heq, hbefore⟩

theorem find?_covers_eq_none_iff {vertices : List String} {others : List Hyperedge} :
    others.find? (covers others vertices) = none ↔
      ∀ f ∈ others, ¬ f.HasShared vertices others := by
  rw [List.find?_eq_none]
  simp only [covers_iff]
  rfl

/-- The ear test tells three things apart: no vertex is shared; some are, and the first
of the other hyperedges that has all of these is the witness; some are, and none of the
others has all of these. -/
theorem ear?_eq_iff (vertices : List String) (others : List Hyperedge) :
    (ear? vertices others = some none ↔ ∀ v ∈ vertices, ∀ f ∈ others, v ∉ f.vertices) ∧
    (∀ w, ear? vertices others = some (some w) ↔
      (∃ v ∈ vertices, ∃ f ∈ others, v ∈ f.vertices) ∧
        ∃ before after, others = before ++ w :: after ∧ w.HasShared vertices others ∧
          ∀ f ∈ before, ¬ f.HasShared vertices others) ∧
    (ear? vertices others = none ↔
      (∃ v ∈ vertices, ∃ f ∈ others, v ∈ f.vertices) ∧
        ∀ f ∈ others, ¬ f.HasShared vertices others) := by
  rw [ear?_eq, firstCovering]
  by_cases hany : vertices.any (isShared others) = true
  · have hshared := any_isShared_iff.mp hany
    rw [if_pos hany]
    refine ⟨?_, fun w => ?_, ?_⟩
    · refine iff_of_false (by simp) fun hnone => ?_
      obtain ⟨v, hv, f, hf, hvf⟩ := hshared
      exact hnone v hv f hf hvf
    · rw [and_iff_right hshared, ← find?_covers_eq_some_iff]
      simp
    · rw [and_iff_right hshared, ← find?_covers_eq_none_iff, Option.map_eq_none_iff]
  · have hnone : ¬ ∃ v ∈ vertices, ∃ f ∈ others, v ∈ f.vertices :=
      fun h => hany (any_isShared_iff.mpr h)
    rw [if_neg hany]
    refine ⟨iff_of_true rfl fun v hv f hf hvf => hnone ⟨v, hv, f, hf, hvf⟩, fun w => ?_, ?_⟩
    · exact iff_of_false (by simp) fun h => hnone h.1
    · exact iff_of_false (by simp) fun h => hnone h.1

/-- The first hyperedge has one of the shared vertices and is taken, but misses the next. -/
example :
    let first := Hyperedge.ofVertices ["a", "q"]
    let second := Hyperedge.ofVertices ["a", "b", "c", "r"]
    ear? ["p", "a", "b", "c"] [first, second] = some (some second) := by cbv

end Conjunctive
