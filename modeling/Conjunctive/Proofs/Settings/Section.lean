import Conjunctive.Settings.Section
import Conjunctive.Value.Parts
import Mathlib.Tactic.SplitIfs

/-!
# Reading sections that were changed

A value is a tree if it stands on its own: no part of it stands elsewhere too, and the keys
of each of its maps are different. Setting a value in a tree or laying a tree over another
gives a tree again.

What stands at a path after that is told by what stood there. Of two paths that part from
each other, setting the one leaves the other alone. Where something lies above, it lies
over what stood at that place (`at?_above_of_some`); where nothing lies above, the path ends
in a section above, and only what this section lies over matters (`at?_above_of_none`).
-/

namespace Conjunctive

namespace Value

variable {k l v w : Value} {es fs : List (Value × Value)} {below : Option Value}

/-! ### Entries -/

theorem lookup_cons (k l v : Value) (es : List (Value × Value)) :
    lookup k ((l, v) :: es) = if l.same k then some v else lookup k es := rfl

theorem lookup_congr (h : k.same l = true) (es : List (Value × Value)) :
    lookup k es = lookup l es := by
  have hsame : ∀ m : Value, m.same k = m.same l := by
    intro m
    rw [Bool.eq_iff_iff, same_iff, same_iff, same_iff.mp h]
  induction es with
  | nil => rfl
  | cons e es ih => rw [lookup_cons, lookup_cons, hsame, ih]

theorem lookup_insert (k l v : Value) (es : List (Value × Value)) :
    lookup k (insert l v es) = if l.same k then some v else lookup k es := by
  induction es with
  | nil => rfl
  | cons e es ih =>
      obtain ⟨m, w⟩ := e
      rw [insert]
      by_cases hml : m.same l = true
      · have hmk : m.same k = l.same k := by
          rw [Bool.eq_iff_iff, same_iff, same_iff, same_iff.mp hml]
        rw [if_pos hml, lookup_cons, lookup_cons, hmk]
        split_ifs <;> rfl
      · rw [if_neg hml, lookup_cons, lookup_cons, ih]
        by_cases hmk : m.same k = true
        · have hlk : ¬ l.same k = true := fun hlk => hml (same_trans hmk (same_comm l k ▸ hlk))
          rw [if_pos hmk, if_neg hlk, if_pos hmk]
        · rw [if_neg hmk, if_neg hmk]

theorem lookup_insert_self (k v : Value) (es : List (Value × Value)) :
    lookup k (insert k v es) = some v := by
  rw [lookup_insert, if_pos (same_refl k)]

theorem insert_eq_self (h : lookup k es = some v) : insert k v es = es := by
  induction es with
  | nil => cases h
  | cons e es ih =>
      obtain ⟨l, w⟩ := e
      rw [lookup_cons] at h
      rw [insert]
      split_ifs at h ⊢
      · rw [Option.some.inj h]
      · rw [ih h]

theorem isMap_iff : v.isMap = true ↔ ∃ es, v = map es := by
  constructor
  · intro h
    cases v with
    | map es => exact ⟨es, rfl⟩
    | _ => cases h
  · rintro ⟨es, rfl⟩
    rfl

/-! ### Trees -/

mutual

/-- Whether a value stands on its own, with different keys in each map. -/
def isTree : Value → Bool
  | part _ => false
  | time _ mark => mark.isNone
  | list items => areTrees items
  | tuple items => areTrees items
  | set items => areTrees items
  | map entries => haveTrees entries
  | _ => true

/-- Whether all items are trees. -/
def areTrees : List Value → Bool
  | [] => true
  | v :: vs => v.isTree && areTrees vs

/-- Whether all entries have trees, under different keys. -/
def haveTrees : List (Value × Value) → Bool
  | [] => true
  | (k, v) :: es => k.isTree && v.isTree && (lookup k es).isNone && haveTrees es

end

theorem haveTrees_cons_iff : haveTrees ((k, v) :: es) = true ↔
    k.isTree = true ∧ v.isTree = true ∧ lookup k es = none ∧ haveTrees es = true := by
  rw [haveTrees, Bool.and_eq_true, Bool.and_eq_true, Bool.and_eq_true, Option.isNone_iff_eq_none,
    and_assoc, and_assoc]

section Replace

variable (part : Nat → Value) (mark : Nat → Option Nat)

mutual

/-- There is nothing to put in place in a tree. -/
theorem replace_of_isTree : ∀ {v : Value}, v.isTree = true → v.replace part mark = v
  | null, _ | bool _, _ | int _, _ | float _ _, _ | text _, _ | unbound, _ | bytes _, _ => rfl
  | time t m, h => by
      rw [isTree, Option.isNone_iff_eq_none] at h
      rw [replace, h]
      rfl
  | list items, h => congrArg list (replaceItems_of_areTrees h)
  | tuple items, h => congrArg tuple (replaceItems_of_areTrees h)
  | set items, h => congrArg set (replaceItems_of_areTrees h)
  | map entries, h => congrArg map (replaceEntries_of_haveTrees h)

theorem replaceItems_of_areTrees : ∀ {vs : List Value}, areTrees vs = true →
    replaceItems part mark vs = vs
  | [], _ => rfl
  | v :: vs, h => by
      rw [areTrees, Bool.and_eq_true] at h
      rw [replaceItems, replace_of_isTree h.1, replaceItems_of_areTrees h.2]

theorem replaceEntries_of_haveTrees : ∀ {es : List (Value × Value)}, haveTrees es = true →
    replaceEntries part mark es = es
  | [], _ => rfl
  | (k, v) :: es, h => by
      obtain ⟨hk, hv, -, hes⟩ := haveTrees_cons_iff.mp h
      rw [replaceEntries, replace_of_isTree hk, replace_of_isTree hv,
        replaceEntries_of_haveTrees hes]

end

end Replace

theorem haveTrees_entries (h : v.isTree = true) : haveTrees v.entries = true := by
  cases v with
  | map es => exact h
  | _ => rfl

theorem isTree_of_lookup (h : haveTrees es = true) (hv : lookup k es = some v) :
    v.isTree = true := by
  induction es with
  | nil => cases hv
  | cons e es ih =>
      obtain ⟨l, w⟩ := e
      obtain ⟨-, hw, -, hes⟩ := haveTrees_cons_iff.mp h
      rw [lookup_cons] at hv
      split_ifs at hv
      · exact Option.some.inj hv ▸ hw
      · exact ih hes hv

/-- Under different keys each entry is found. -/
theorem lookup_of_mem (h : haveTrees es = true) (hv : (k, v) ∈ es) : lookup k es = some v := by
  induction es with
  | nil => cases hv
  | cons e es ih =>
      obtain ⟨l, w⟩ := e
      obtain ⟨-, -, hl, hes⟩ := haveTrees_cons_iff.mp h
      rw [lookup_cons]
      rcases List.mem_cons.mp hv with heq | hv
      · cases heq
        rw [if_pos (same_refl k)]
      · have hk := ih hes hv
        have hlk : ¬ l.same k = true := by
          intro hlk
          rw [lookup_congr hlk, hk] at hl
          cases hl
        rw [if_neg hlk, hk]

theorem haveTrees_insert (h : haveTrees es = true) (hk : k.isTree = true) (hv : v.isTree = true) :
    haveTrees (insert k v es) = true := by
  induction es with
  | nil => exact haveTrees_cons_iff.mpr ⟨hk, hv, rfl, rfl⟩
  | cons e es ih =>
      obtain ⟨l, w⟩ := e
      obtain ⟨hl, hw, hnone, hes⟩ := haveTrees_cons_iff.mp h
      rw [insert]
      by_cases hlk : l.same k = true
      · rw [if_pos hlk]
        exact haveTrees_cons_iff.mpr ⟨hl, hv, hnone, hes⟩
      · rw [if_neg hlk]
        refine haveTrees_cons_iff.mpr ⟨hl, hw, ?_, ih hes⟩
        rw [lookup_insert, same_comm, if_neg hlk, hnone]

/-! ### Paths -/

theorem at?_cons (v k : Value) (ks : List Value) :
    v.at? (k :: ks) = (lookup k v.entries).bind fun w => w.at? ks := rfl

theorem at?_append (v : Value) (ks ls : List Value) :
    v.at? (ks ++ ls) = (v.at? ks).bind fun w => w.at? ls := by
  induction ks generalizing v with
  | nil => rfl
  | cons k ks ih =>
      rw [List.cons_append, at?_cons, at?_cons, Option.bind_assoc]
      simp only [ih]

/-- A path goes on only in a section. -/
theorem at?_cons_of_isMap_eq_false (h : v.isMap = false) (k : Value) (ks : List Value) :
    v.at? (k :: ks) = none := by
  cases v with
  | map es => cases h
  | _ => rfl

theorem isTree_of_at? {ks : List Value} (h : v.isTree = true) (hw : v.at? ks = some w) :
    w.isTree = true := by
  induction ks generalizing v with
  | nil => exact Option.some.inj hw ▸ h
  | cons k ks ih =>
      obtain ⟨u, hu, hw⟩ := Option.bind_eq_some_iff.mp hw
      exact ih (isTree_of_lookup (haveTrees_entries h) hu) hw

/-- A path at which nothing stands has a last section on its way. -/
theorem exists_of_at?_eq_none {ks : List Value} (h : v.at? ks = none) :
    ∃ hs k ls w, ks = hs ++ k :: ls ∧ v.at? hs = some w ∧ lookup k w.entries = none := by
  induction ks generalizing v with
  | nil => cases h
  | cons k ks ih =>
      rw [at?_cons, Option.bind_eq_none_iff] at h
      cases hk : lookup k v.entries with
      | none => exact ⟨[], k, ks, v, rfl, rfl, hk⟩
      | some u =>
          obtain ⟨hs, l, ls, w, rfl, hw, hl⟩ := ih (h u hk)
          refine ⟨k :: hs, l, ls, w, rfl, ?_, hl⟩
          rw [at?_cons, hk]
          exact hw

/-! ### Setting a value -/

/-- At the path that is set, and beyond it, the value is read. -/
theorem at?_put_append (d v : Value) (ks ls : List Value) :
    (d.put v ks).at? (ks ++ ls) = v.at? ls := by
  induction ks generalizing d with
  | nil => rfl
  | cons k ks ih =>
      rw [put, List.cons_append, at?_cons, entries, lookup_insert_self]
      exact ih _

/-- On the way to the path there are sections. -/
theorem exists_at?_put (d v : Value) (ks : List Value) (l : Value) (ls : List Value) :
    ∃ es, (d.put v (ks ++ l :: ls)).at? ks = some (map es) := by
  induction ks generalizing d with
  | nil => exact ⟨_, rfl⟩
  | cons k ks ih =>
      rw [List.cons_append, put, at?_cons, entries, lookup_insert_self]
      exact ih _

/-- At a path that parts from the one that is set, everything is as before. -/
theorem at?_put_of_not_prefix (d v : Value) {ps qs : List String} (hpq : ¬ ps <+: qs)
    (hqp : ¬ qs <+: ps) : (d.put v (ps.map text)).at? (qs.map text) = d.at? (qs.map text) := by
  induction ps generalizing d qs with
  | nil => exact absurd List.nil_prefix hpq
  | cons p ps ih =>
      cases qs with
      | nil => exact absurd List.nil_prefix hqp
      | cons q qs =>
          rw [List.map_cons, List.map_cons, put, at?_cons, at?_cons, entries, lookup_insert]
          by_cases heq : p = q
          · subst heq
            have hpq' : ¬ ps <+: qs := fun h => hpq (List.cons_prefix_cons.mpr ⟨rfl, h⟩)
            have hqp' : ¬ qs <+: ps := fun h => hqp (List.cons_prefix_cons.mpr ⟨rfl, h⟩)
            rw [if_pos (same_refl _), Option.bind_some, ih _ hpq' hqp']
            cases lookup (text p) d.entries with
            | some u => rfl
            | none =>
                -- a new section holds nothing, and the path goes on in it
                obtain ⟨q, qs, rfl⟩ : ∃ r rs, qs = r :: rs :=
                  List.exists_cons_of_ne_nil fun h => hqp' (h ▸ List.nil_prefix)
                rfl
          · have hne : ¬ (text p).same (text q) = true := by
              rw [same_iff]
              intro h
              cases h
              exact heq rfl
            rw [if_neg hne]

theorem isTree_put {d : Value} (hd : d.isTree = true) (hv : v.isTree = true) {ks : List Value}
    (hks : ∀ k ∈ ks, k.isTree = true) : (d.put v ks).isTree = true := by
  induction ks generalizing d with
  | nil => exact hv
  | cons k ks ih =>
      obtain ⟨hk, hks⟩ := List.forall_mem_cons.mp hks
      have hbelow : ((lookup k d.entries).getD null).isTree = true := by
        cases hu : lookup k d.entries with
        | none => rfl
        | some u => exact isTree_of_lookup (haveTrees_entries hd) hu
      exact haveTrees_insert (haveTrees_entries hd) hk (ih hbelow hks)

/-! ### Laying one value over another -/

theorem above_of_isMap_eq_false (below : Option Value) (h : v.isMap = false) :
    above below v = v := by
  cases v with
  | map es => cases h
  | _ => rfl

/-- Over what is no section a section lies as it is. -/
theorem above_of_forall_ne (h : ∀ fs, below ≠ some (map fs)) (v : Value) : above below v = v := by
  cases v with
  | map es =>
      rw [above]
      exact fun fs hfs => h fs hfs
  | _ => rfl

theorem above_none (v : Value) : above none v = v := above_of_forall_ne (by simp) v

/-- What stands under a key of two sections that lie over each other. -/
def laidOver (below : Option Value) : Option Value → Option Value
  | none => below
  | some v => some (above below v)

theorem lookup_overlay (h : haveTrees es = true) (k : Value) :
    lookup k (overlay fs es) = laidOver (lookup k fs) (lookup k es) := by
  induction es generalizing fs with
  | nil => rfl
  | cons e es ih =>
      obtain ⟨l, v⟩ := e
      obtain ⟨-, -, hl, hes⟩ := haveTrees_cons_iff.mp h
      rw [overlay, ih hes, lookup_insert, lookup_cons]
      by_cases hlk : l.same k = true
      · rw [if_pos hlk, if_pos hlk, ← lookup_congr hlk, hl, lookup_congr hlk]
        rfl
      · rw [if_neg hlk, if_neg hlk]

/-- Where something stands above, it lies over what stands below. -/
theorem at?_above_of_some {ks : List Value} (hv : v.isTree = true) (hw : v.at? ks = some w) :
    (above below v).at? ks = some (above (below.bind fun u => u.at? ks) w) := by
  induction ks generalizing v below with
  | nil =>
      cases hw
      cases below <;> rfl
  | cons k ks ih =>
      obtain ⟨u, hu, hw'⟩ := Option.bind_eq_some_iff.mp hw
      cases v with
      | map es =>
          have hutree := isTree_of_lookup hv hu
          by_cases hbelow : ∃ fs, below = some (map fs)
          · obtain ⟨fs, rfl⟩ := hbelow
            change (lookup k (overlay fs es)).bind (fun x => x.at? ks) = _
            rw [lookup_overlay hv, show lookup k es = some u from hu]
            exact ih hutree hw'
          · have hnone : (below.bind fun u => u.at? (k :: ks)) = none := by
              rw [Option.bind_eq_none_iff]
              intro u hu
              refine at?_cons_of_isMap_eq_false ?_ k ks
              cases u with
              | map fs => exact absurd ⟨fs, hu⟩ hbelow
              | _ => rfl
            rw [hnone, above_none, above_of_forall_ne fun fs hfs => hbelow ⟨fs, hfs⟩]
            exact hw
      | _ => cases hu

/-- Whether a path leads through a place where a value above is no section, or lies over
what is no section. What stands there below is out of sight. -/
def Hides (below : Option Value) (v : Value) (ks : List Value) : Prop :=
  ∃ hs l ls w, ks = hs ++ l :: ls ∧ v.at? hs = some w ∧
    (w.isMap = false ∨ ∃ u, below.bind (fun b => b.at? hs) = some u ∧ u.isMap = false)

theorem at?_above_of_hides {ks : List Value} (hv : v.isTree = true) (hks : v.at? ks = none)
    (h : Hides below v ks) : (above below v).at? ks = none := by
  obtain ⟨hs, l, ls, w, rfl, hw, hcase⟩ := h
  rw [at?_append, hw, Option.bind_some] at hks
  rw [at?_append, at?_above_of_some hv hw, Option.bind_some]
  rcases hcase with hmap | ⟨u, hu, humap⟩
  · rw [above_of_isMap_eq_false _ hmap, hks]
  · rw [hu, above_of_forall_ne, hks]
    rintro fs hfs
    cases hfs
    cases humap

/-- Where nothing stands above and nothing is hidden, there is what stands below. -/
theorem at?_above_of_none {ks : List Value} (hv : v.isTree = true) (hks : v.at? ks = none)
    (h : ¬ Hides below v ks) : (above below v).at? ks = below.bind fun b => b.at? ks := by
  obtain ⟨hs, l, ls, w, rfl, hw, hl⟩ := exists_of_at?_eq_none hks
  have hmap : w.isMap = true :=
    Bool.of_not_eq_false fun hmap => h ⟨hs, l, ls, w, rfl, hw, Or.inl hmap⟩
  obtain ⟨es, rfl⟩ := isMap_iff.mp hmap
  have hbelow : ∀ b : Value, b.at? (hs ++ l :: ls) = (b.at? hs).bind fun u => u.at? (l :: ls) :=
    fun b => at?_append b hs (l :: ls)
  rw [at?_append, at?_above_of_some hv hw, Option.bind_some]
  simp only [hbelow]
  rw [← Option.bind_assoc]
  cases hu : below.bind fun b => b.at? hs with
  | none =>
      rw [above_none, at?_cons, hl]
      rfl
  | some u =>
      cases u with
      | map fs =>
          rw [above, at?_cons, Option.bind_some, at?_cons, entries, entries,
            lookup_overlay (isTree_of_at? hv hw), show lookup l es = none from hl]
          rfl
      | _ => exact absurd ⟨hs, l, ls, _, rfl, hw, Or.inr ⟨_, hu, rfl⟩⟩ h

/-! ### Laying the same over again -/

theorem overlay_eq_self (h : ∀ e ∈ es, ∃ w, lookup e.1 fs = some w ∧ above (some w) e.2 = w) :
    overlay fs es = fs := by
  induction es with
  | nil => rfl
  | cons e es ih =>
      obtain ⟨⟨w, hw, habove⟩, hes⟩ := List.forall_mem_cons.mp h
      rw [overlay, hw, habove, insert_eq_self hw, ih hes]

mutual

/-- Laid over once more, a tree changes nothing. -/
theorem above_above : ∀ {v : Value}, v.isTree = true → ∀ below : Option Value,
    above (some (above below v)) v = above below v
  | map es, h, below => by
      have hes := above_above_of_mem h
      by_cases hbelow : ∃ fs, below = some (map fs)
      · obtain ⟨fs, rfl⟩ := hbelow
        refine congrArg map (overlay_eq_self fun e he => ⟨above (lookup e.1 fs) e.2, ?_, hes e he _⟩)
        rw [lookup_overlay h, lookup_of_mem h he]
        rfl
      · rw [above_of_forall_ne fun fs hfs => hbelow ⟨fs, hfs⟩]
        refine congrArg map (overlay_eq_self fun e he => ⟨e.2, lookup_of_mem h he, ?_⟩)
        have hself := hes e he none
        rwa [above_none] at hself
  | null, _, _ | bool _, _, _ | int _, _, _ | float _ _, _, _ | text _, _, _ | unbound, _, _
  | bytes _, _, _ | time _ _, _, _ | list _, _, _ | tuple _, _, _ | set _, _, _ => rfl
  | part _, h, _ => nomatch h

theorem above_above_of_mem : ∀ {es : List (Value × Value)}, haveTrees es = true → ∀ e ∈ es,
    ∀ below : Option Value, above (some (above below e.2)) e.2 = above below e.2
  | (k, v) :: es, h, e, he, below => by
      obtain ⟨-, hv, -, hes⟩ := haveTrees_cons_iff.mp h
      rcases List.mem_cons.mp he with rfl | he
      · exact above_above hv below
      · exact above_above_of_mem hes e he below

end

theorem overlay_overlay (h : haveTrees es = true) (fs : List (Value × Value)) :
    overlay (overlay fs es) es = overlay fs es :=
  map.inj (above_above (v := map es) h (some (map fs)))

mutual

theorem isTree_above : ∀ {v : Value}, v.isTree = true → ∀ below : Option Value,
    (∀ b, below = some b → b.isTree = true) → (above below v).isTree = true
  | map es, h, below, hbelow => by
      by_cases hmap : ∃ fs, below = some (map fs)
      · obtain ⟨fs, rfl⟩ := hmap
        exact haveTrees_overlay h (hbelow _ rfl)
      · rw [above_of_forall_ne fun fs hfs => hmap ⟨fs, hfs⟩]
        exact h
  | null, h, _, _ | bool _, h, _, _ | int _, h, _, _ | float _ _, h, _, _ | text _, h, _, _
  | unbound, h, _, _ | bytes _, h, _, _ | time _ _, h, _, _ | list _, h, _, _ | tuple _, h, _, _
  | set _, h, _, _ | part _, h, _, _ => h

theorem haveTrees_overlay : ∀ {es : List (Value × Value)}, haveTrees es = true →
    ∀ {fs : List (Value × Value)}, haveTrees fs = true → haveTrees (overlay fs es) = true
  | [], _, _, hfs => hfs
  | (k, v) :: es, h, fs, hfs => by
      obtain ⟨hk, hv, -, hes⟩ := haveTrees_cons_iff.mp h
      have habove := isTree_above hv (lookup k fs) fun b hb => isTree_of_lookup hfs hb
      exact haveTrees_overlay hes (haveTrees_insert hfs hk habove)

end

end Value

end Conjunctive
