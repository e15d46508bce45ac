import Mathlib.Algebra.Ring.Nat
import Mathlib.Data.List.Nodup
import Mathlib.Data.List.Perm.Basic

/-!
# Lists

Facts about lists that have to do with no program: repetitions, nested loops
and their counts, looking up, and loops that may fail but do not.
-/

namespace Conjunctive

variable {ε α β γ : Type}

theorem nodup_eraseDups [DecidableEq α] : ∀ l : List α, l.eraseDups.Nodup
  | [] => by simp
  | a :: l => by
      rw [List.eraseDups_cons, List.nodup_cons]
      exact ⟨by simp [List.mem_eraseDups], nodup_eraseDups (l.filter fun b => !b == a)⟩
termination_by l => l.length
decreasing_by
  have := List.length_filter_le (fun b => !b == a) l
  simp only [List.length_cons]
  omega

theorem eraseDups_sublist [DecidableEq α] : ∀ l : List α, l.eraseDups.Sublist l
  | [] => by simp
  | a :: l => by
      rw [List.eraseDups_cons]
      exact ((eraseDups_sublist (l.filter fun b => !b == a)).trans
        List.filter_sublist).cons_cons a
termination_by l => l.length
decreasing_by
  have := List.length_filter_le (fun b => !b == a) l
  simp only [List.length_cons]
  omega

theorem eraseDups_eq_self_iff [DecidableEq α] {l : List α} : l.eraseDups = l ↔ l.Nodup := by
  refine ⟨fun h => h ▸ nodup_eraseDups l, fun h => ?_⟩
  refine (eraseDups_sublist l).eq_of_length_le (h.length_le_of_subset fun a ha => ?_)
  exact List.mem_eraseDups.mpr ha

/-- A list that lacks no element of any kind is not shortened. -/
theorem eq_of_sublist_of_countP {l l' : List α} (h : l.Sublist l')
    (hcount : ∀ a ∈ l', ∃ p : α → Bool, p a = true ∧ l.countP p = l'.countP p) : l = l' := by
  induction h with
  | slnil => rfl
  | cons a h _ =>
      obtain ⟨p, ha, heq⟩ := hcount a (by simp)
      have hle := h.countP_le (p := p)
      rw [List.countP_cons_of_pos ha] at heq
      omega
  | cons_cons a _ ih =>
      refine congrArg (List.cons a) (ih fun b hb => ?_)
      obtain ⟨p, hp, heq⟩ := hcount b (List.mem_cons_of_mem a hb)
      rw [List.countP_cons, List.countP_cons] at heq
      exact ⟨p, hp, by omega⟩

/-- What is in front of the first of some separators, and what is behind it. -/
theorem eq_of_append_cons {c : α} {as bs : List α} (ha : c ∉ as) (hb : c ∉ bs)
    {r r' : List α} (h : as ++ c :: r = bs ++ c :: r') : as = bs ∧ r = r' := by
  induction as generalizing bs with
  | nil =>
      cases bs with
      | nil => exact ⟨rfl, (List.cons.inj h).2⟩
      | cons b bs => exact absurd (List.mem_cons.mpr (Or.inl (List.cons.inj h).1)) hb
  | cons a as ih =>
      cases bs with
      | nil => exact absurd (List.mem_cons.mpr (Or.inl (List.cons.inj h).1.symm)) ha
      | cons b bs =>
          obtain ⟨rfl, hrest⟩ := List.cons.inj h
          rw [List.mem_cons, not_or] at ha hb
          obtain ⟨rfl, hr⟩ := ih ha.2 hb.2 hrest
          exact ⟨rfl, hr⟩

/-- A first part that ends in front of a separator. -/
theorem prefix_of_prefix_append_cons {c : α} {as bs cs : List α} (hc : c ∉ as)
    (h : as <+: bs ++ c :: cs) : as <+: bs := by
  rcases List.prefix_or_prefix_of_prefix h (List.prefix_append bs (c :: cs)) with has | ⟨ds, rfl⟩
  · exact has
  · rw [List.prefix_append_right_inj] at h
    cases ds with
    | nil => simp
    | cons d ds =>
        obtain rfl := (List.cons_prefix_cons.mp h).1
        exact absurd (by simp) hc

/-- An element of two lists that are put together is one of the first or of the second. -/
theorem append_eq_append_cons {a : α} {as bs cs ds : List α} (h : as ++ bs = cs ++ a :: ds) :
    (∃ r, as = cs ++ a :: r ∧ ds = r ++ bs) ∨ ∃ l, cs = as ++ l ∧ bs = l ++ a :: ds := by
  rcases List.append_eq_append_iff.mp h with ⟨l, hcs, hbs⟩ | ⟨r, has, hr⟩
  · exact Or.inr ⟨l, hcs, hbs⟩
  · cases r with
    | nil => exact Or.inr ⟨[], by simpa using has.symm, by simpa using hr.symm⟩
    | cons b r =>
        obtain ⟨rfl, hds⟩ := List.cons.inj hr
        exact Or.inl ⟨r, has, hds⟩

/-- All elements of a list have a property, or there is a first one that has not. -/
theorem forall_or_exists_first (p : α → Prop) (l : List α) : (∀ a ∈ l, p a) ∨
    ∃ before a after, l = before ++ a :: after ∧ (∀ b ∈ before, p b) ∧ ¬ p a := by
  induction l with
  | nil => exact Or.inl nofun
  | cons a l ih =>
      by_cases ha : p a
      · rcases ih with hall | ⟨before, b, after, rfl, hbefore, hb⟩
        · exact Or.inl (List.forall_mem_cons.mpr ⟨ha, hall⟩)
        · exact Or.inr ⟨a :: before, b, after, rfl, List.forall_mem_cons.mpr ⟨ha, hbefore⟩, hb⟩
      · exact Or.inr ⟨[], a, l, rfl, nofun, ha⟩

/-- There is only one first element without a property. -/
theorem first_unique {p : α → Prop} {as bs cs ds : List α} {a b : α}
    (h : as ++ a :: cs = bs ++ b :: ds) (has : ∀ c ∈ as, p c) (hbs : ∀ c ∈ bs, p c)
    (ha : ¬ p a) (hb : ¬ p b) : a = b := by
  rcases append_eq_append_cons h with ⟨r, rfl, -⟩ | ⟨l, rfl, hl⟩
  · exact absurd (has b (by simp)) hb
  · cases l with
    | nil => exact (List.cons.inj hl).1
    | cons c l => exact absurd (hbs a (by simp [(List.cons.inj hl).1])) ha

/-- An element of lists that are put together is one of a list among them. -/
theorem exists_of_flatMap_eq {f : α → List β} {as : List α} {b : β} {bs cs : List β}
    (h : as.flatMap f = bs ++ b :: cs) : ∃ before a after l r,
      as = before ++ a :: after ∧ f a = l ++ b :: r ∧
      bs = before.flatMap f ++ l ∧ cs = r ++ after.flatMap f := by
  induction as generalizing bs with
  | nil => exact absurd h.symm (List.append_ne_nil_of_right_ne_nil bs (List.cons_ne_nil b cs))
  | cons a as ih =>
      rw [List.flatMap_cons] at h
      rcases append_eq_append_cons h with ⟨r, ha, rfl⟩ | ⟨l, rfl, hrest⟩
      · exact ⟨[], a, as, bs, r, rfl, ha, rfl, rfl⟩
      · obtain ⟨before, d, after, l', r, rfl, hd, rfl, rfl⟩ := ih hrest
        exact ⟨a :: before, d, after, l', r, rfl, hd, by simp, rfl⟩

/-- What stands where elements were dropped would not be dropped. -/
theorem eq_false_of_mem_head?_dropWhile {p : α → Bool} {l : List α} {a : α}
    (h : a ∈ (l.dropWhile p).head?) : p a = false := by
  have hnot := List.head?_dropWhile_not p l
  rw [Option.mem_def] at h
  rwa [h] at hnot

/-! ### Nested loops -/

/-- Two nested loops may change places. -/
theorem perm_flatMap_filter (as : List α) (bs : List β) (p : α → β → Bool)
    (f : α → β → γ) :
    List.Perm (as.flatMap fun a => (bs.filter (p a)).map (f a))
      (bs.flatMap fun b => (as.filter fun a => p a b).map fun a => f a b) := by
  induction as with
  | nil => simp
  | cons a as ih =>
      rw [List.flatMap_cons]
      have hhead : ∀ bs : List β, (bs.filter (p a)).map (f a) =
          bs.flatMap fun b => if p a b then [f a b] else [] := by
        intro bs
        induction bs with
        | nil => rfl
        | cons b bs ih => by_cases hab : p a b = true <;> simp [hab, ih]
      have hsplit : (fun b => ((a :: as).filter fun a => p a b).map fun a => f a b) =
          fun b => (if p a b then [f a b] else []) ++
            (as.filter fun a => p a b).map fun a => f a b := by
        funext b
        by_cases hab : p a b = true <;> simp [hab]
      rw [hhead, hsplit]
      exact (ih.append_left _).trans (List.flatMap_append_perm _ _ _)

/-- The test of an outer loop may be left to the inner one. -/
theorem flatMap_filter_map (as : List α) (bs : List β) (p : α → Bool) (q : α → β → Bool)
    (f : α → β → γ) : ((as.filter p).flatMap fun a => (bs.filter (q a)).map (f a)) =
      as.flatMap fun a => (bs.filter fun b => p a && q a b).map (f a) := by
  induction as with
  | nil => rfl
  | cons a as ih =>
      rw [List.flatMap_cons, ← ih]
      by_cases ha : p a = true <;> simp [ha]

/-- Where each of some lists has the same number of hits or none, hits multiply. -/
theorem countP_flatMap_eq_mul {l : List α} {f : α → List β} {p : β → Bool}
    {q : α → Bool} {k : Nat} (h : ∀ a ∈ l, (f a).countP p = if q a then k else 0) :
    (l.flatMap f).countP p = l.countP q * k := by
  induction l with
  | nil => simp
  | cons a l ih =>
      rw [List.flatMap_cons, List.countP_append, ih fun a ha => h a (by simp [ha]),
        h a (by simp), List.countP_cons]
      split_ifs
      · rw [Nat.add_mul, Nat.one_mul, Nat.add_comm]
      · rw [Nat.zero_add, Nat.add_zero]

/-! ### Looking up -/

theorem map_lookup_zip [BEq α] (f : β → γ) (a : α) (as : List α) (bs : List β) :
    (List.lookup a (as.zip bs)).map f = List.lookup a (as.zip (bs.map f)) := by
  induction as generalizing bs with
  | nil => rfl
  | cons c as ih =>
      cases bs with
      | nil => rfl
      | cons b bs =>
          rw [List.map_cons, List.zip_cons_cons, List.zip_cons_cons, List.lookup_cons,
            List.lookup_cons]
          cases a == c with
          | true => rfl
          | false => exact ih bs

theorem lookup_zip_map [DecidableEq α] (f : α → β) (a : α) (as : List α) :
    List.lookup a (as.zip (as.map f)) = if a ∈ as then some (f a) else none := by
  induction as with
  | nil => rfl
  | cons c as ih =>
      rw [List.map_cons, List.zip_cons_cons, List.lookup_cons]
      by_cases hac : a = c
      · simp [hac]
      · rw [beq_eq_false_iff_ne.mpr hac, ih]
        simp [hac]

/-! ### Steps and loops that may fail -/

theorem bind_eq_ok_iff {x : Except ε α} {k : α → Except ε β} {b : β} :
    (x >>= k) = .ok b ↔ ∃ a, x = .ok a ∧ k a = .ok b := by
  cases x with
  | error e => simp [bind, Except.bind]
  | ok a => simp [bind, Except.bind]

theorem bind_eq_error_iff {x : Except ε α} {k : α → Except ε β} {e : ε} :
    (x >>= k) = .error e ↔ x = .error e ∨ ∃ a, x = .ok a ∧ k a = .error e := by
  cases x with
  | error e => simp [bind, Except.bind]
  | ok a => simp [bind, Except.bind]

theorem exists_of_mapM_eq_ok {f : α → Except ε β} {l : List α} {bs : List β}
    (h : l.mapM f = .ok bs) {b : β} (hb : b ∈ bs) : ∃ a ∈ l, f a = .ok b := by
  induction l generalizing bs with
  | nil =>
      cases h
      cases hb
  | cons a l ih =>
      rw [List.mapM_cons, bind_eq_ok_iff] at h
      obtain ⟨b', ha, h⟩ := h
      obtain ⟨bs', hl, h⟩ := bind_eq_ok_iff.mp h
      cases h
      rcases List.mem_cons.mp hb with rfl | hb
      · exact ⟨a, by simp, ha⟩
      · obtain ⟨a', ha', hrun⟩ := ih hl hb
        exact ⟨a', by simp [ha'], hrun⟩

/-- A loop that does not fail does not fail at any item. -/
theorem exists_eq_ok_of_mapM_eq_ok {f : α → Except ε β} {l : List α} {bs : List β}
    (h : l.mapM f = .ok bs) {a : α} (ha : a ∈ l) : ∃ b, f a = .ok b := by
  induction l generalizing bs with
  | nil => cases ha
  | cons c l ih =>
      rw [List.mapM_cons, bind_eq_ok_iff] at h
      obtain ⟨b, hc, h⟩ := h
      obtain ⟨bs', hl, -⟩ := bind_eq_ok_iff.mp h
      rcases List.mem_cons.mp ha with rfl | ha
      · exact ⟨b, hc⟩
      · exact ih hl ha

theorem exists_of_mapM_eq_error {f : α → Except ε β} {l : List α} {e : ε}
    (h : l.mapM f = .error e) : ∃ a ∈ l, f a = .error e := by
  induction l with
  | nil => cases h
  | cons a l ih =>
      rw [List.mapM_cons, bind_eq_error_iff] at h
      rcases h with ha | ⟨b, -, h⟩
      · exact ⟨a, by simp, ha⟩
      · rcases bind_eq_error_iff.mp h with hl | ⟨bs, -, h⟩
        · obtain ⟨a', ha', hrun⟩ := ih hl
          exact ⟨a', by simp [ha'], hrun⟩
        · cases h

theorem length_of_mapM_eq_some {f : α → Option β} {l : List α} {bs : List β}
    (h : l.mapM f = some bs) : bs.length = l.length := by
  induction l generalizing bs with
  | nil =>
      cases h
      rfl
  | cons a l ih =>
      rw [List.mapM_cons, Option.bind_eq_bind, Option.bind_eq_some_iff] at h
      obtain ⟨b, -, h⟩ := h
      obtain ⟨bs', hl, h⟩ := Option.bind_eq_some_iff.mp h
      cases h
      rw [List.length_cons, List.length_cons, ih hl]

/-- A loop fails at one of its steps. -/
theorem exists_of_foldlM_eq_error {f : β → α → Except ε β} {l : List α} {b : β} {e : ε}
    (h : l.foldlM f b = .error e) :
    ∃ before a after b', l = before ++ a :: after ∧ before.foldlM f b = .ok b' ∧
      f b' a = .error e := by
  induction l generalizing b with
  | nil => cases h
  | cons a l ih =>
      rcases bind_eq_error_iff.mp (List.foldlM_cons.symm.trans h) with ha | ⟨c, ha, hrest⟩
      · exact ⟨[], a, l, b, rfl, rfl, ha⟩
      · obtain ⟨before, a', after, b', rfl, hbefore, ha'⟩ := ih hrest
        refine ⟨a :: before, a', after, b', rfl, ?_, ha'⟩
        rw [List.foldlM_cons, ha]
        exact hbefore

/-! ### Loops that do not fail -/

theorem mapM_eq_ok {f : α → Except ε β} {g : α → β} {l : List α}
    (h : ∀ a ∈ l, f a = .ok (g a)) : l.mapM f = .ok (l.map g) := by
  induction l with
  | nil => rfl
  | cons a l ih =>
      rw [List.mapM_cons, h a (by simp), ih fun a ha => h a (by simp [ha])]
      rfl

/-- A loop that takes back a change made to each item gives the items. -/
theorem mapM_eq_some {f : α → Option β} {g : α → β} {l : List α}
    (h : ∀ a ∈ l, f a = some (g a)) : l.mapM f = some (l.map g) := by
  induction l with
  | nil => rfl
  | cons a l ih =>
      rw [List.mapM_cons, h a List.mem_cons_self, ih fun b hb => h b (List.mem_cons_of_mem a hb)]
      rfl

theorem mapM_map_eq_ok {f : β → Except ε α} {g : α → β} {l : List α}
    (h : ∀ a ∈ l, f (g a) = .ok a) : (l.map g).mapM f = .ok l := by
  have hloop : l.mapM (f ∘ g) = .ok (l.map id) := mapM_eq_ok h
  rw [List.mapM_map, hloop, List.map_id]

theorem mapM_ok (l : List α) : l.mapM (.ok : α → Except ε α) = .ok l := by
  have hloop : (l.map id).mapM (.ok : α → Except ε α) = .ok l := mapM_map_eq_ok fun _ _ => rfl
  rwa [List.map_id] at hloop

theorem foldlM_eq_ok {f : β → α → Except ε β} {g : β → α → β} {l : List α}
    (h : ∀ a ∈ l, ∀ b, f b a = .ok (g b a)) (b : β) : l.foldlM f b = .ok (l.foldl g b) := by
  induction l generalizing b with
  | nil => rfl
  | cons a l ih =>
      rw [List.foldlM_cons, h a (by simp)]
      exact ih (fun a ha => h a (by simp [ha])) (g b a)

end Conjunctive
