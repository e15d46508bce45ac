import Conjunctive.Proofs.Settings.Section
import Conjunctive.Settings.Text
import Mathlib.Data.List.Permutation

/-!
# Settings path by path

Settings are addressed by dotted paths, and a path is on the way to another if its parts
are the first parts of the other. As long as no part of the settings stands in several
places, what is done at one path shows at this path, beyond it and on the way to it, and
nowhere else. Laying a document over the settings is told by what the two have at a path
and on the way to it.
-/

namespace Conjunctive

namespace Text

/-- The first parts of a text are the parts of some text. -/
theorem exists_splitAt_eq_take (sign : Char) (cs : List Char) (n : Nat) :
    ∃ ds, splitAt sign ds = (splitAt sign cs).take (n + 1) := by
  induction cs generalizing n with
  | nil => exact ⟨[], by simp [splitAt, splitHead]⟩
  | cons c cs ih =>
      by_cases hc : c = sign
      · have hsplit : ∀ ds, splitAt sign (c :: ds) = [] :: splitAt sign ds := by
          intro ds
          simp [splitAt, splitHead, hc]
        cases n with
        | zero => exact ⟨[], by rw [hsplit]; rfl⟩
        | succ n =>
            obtain ⟨ds, hds⟩ := ih n
            exact ⟨c :: ds, by rw [hsplit, hsplit, hds, List.take_succ_cons]⟩
      · obtain ⟨ds, hds⟩ := ih n
        refine ⟨c :: ds, ?_⟩
        simp only [splitAt, splitHead, if_neg hc, List.take_succ_cons, List.cons.injEq] at hds ⊢
        rw [hds.1, hds.2]
        simp

end Text

/-! ### Documents without shared parts -/

namespace Document

/-- A document that is a tree: no part of it stands in several places. -/
structure IsTree (d : Document) : Prop where
  parts_eq : d.parts = #[]
  root : d.root.isTree = true

namespace IsTree

variable {d o : Document} {ks : List Value}

theorem go_eq (d : Document) {v : Value} (hv : v.isTree = true) (ks : List Value) :
    at?.go d v ks = v.at? ks := by
  induction ks generalizing v with
  | nil => rfl
  | cons k ks ih =>
      have hresolve : v.resolve d.parts = v := by
        cases v with
        | part n => cases hv
        | _ => rfl
      rw [at?.go, Value.at?_cons, hresolve]
      cases hk : Value.lookup k v.entries with
      | none => rfl
      | some u => exact ih (Value.isTree_of_lookup (Value.haveTrees_entries hv) hk)

/-- What is read from a tree stands in it as it is. -/
theorem at?_eq (h : d.IsTree) (ks : List Value) : d.at? ks = d.root.at? ks := by
  rw [at?, go_eq d h.root]
  cases hv : d.root.at? ks with
  | none => rfl
  | some v => exact congrArg some (Value.replace_of_isTree _ _ (Value.isTree_of_at? h.root hv))

theorem locate_eq (d : Document) {v : Value} (hv : v.isTree = true) (address : Address)
    (ks : List Value) : d.locate v address ks = address := by
  induction ks generalizing v with
  | nil => rfl
  | cons k ks ih =>
      cases ks with
      | nil => rfl
      | cons l ks =>
          cases hk : Value.lookup k v.entries with
          | none => simp [locate, hk]
          | some u =>
              have hu := Value.isTree_of_lookup (Value.haveTrees_entries hv) hk
              cases u with
              | part n => cases hu
              | _ => simpa [locate, hk] using ih hu

theorem put_eq (h : d.IsTree) (v : Value) (ks : List Value) :
    d.put v ks = ⟨d.root.put v ks, d.parts⟩ := by
  rw [put, locate_eq d h.root]
  rfl

theorem put (h : d.IsTree) {v : Value} (hv : v.isTree = true)
    (hks : ∀ k ∈ ks, k.isTree = true) : (d.put v ks).IsTree := by
  rw [h.put_eq]
  exact ⟨h.parts_eq, Value.isTree_put h.root hv hks⟩

theorem overlay_eq (h : d.IsTree) (ho : o.IsTree) : d.overlay o =
    (⟨.map (Value.overlay d.root.entries o.root.entries), d.parts⟩, true) := by
  rw [overlay, h.parts_eq, ho.parts_eq]
  rfl

end IsTree

end Document

namespace Settings

/-! ### Dotted paths -/

/-- The parts of a dotted path. -/
def parts (path : String) : List String := (Text.splitAt '.' path.toList).map String.ofList

theorem keys_eq (path : String) : keys path = (parts path).map .text := by
  rw [keys, parts, List.map_map]
  rfl

theorem parts_ne_nil (path : String) : parts path ≠ [] :=
  mt List.map_eq_nil_iff.mp (Text.splitAt_ne_nil '.' path.toList)

theorem isTree_of_mem_keys {path : String} : ∀ k ∈ keys path, k.isTree = true := by
  rw [keys_eq]
  intro k hk
  obtain ⟨part, -, rfl⟩ := List.mem_map.mp hk
  rfl

/-- Whether a path is on the way to another. -/
def IsOnWayTo (q p : String) : Prop := parts q <+: parts p ∧ parts q ≠ parts p

theorem isOnWayTo_iff {q p : String} :
    IsOnWayTo q p ↔ ∃ r rs, parts p = parts q ++ r :: rs := by
  constructor
  · rintro ⟨⟨rest, hrest⟩, hne⟩
    cases rest with
    | nil => exact absurd (by simpa using hrest) hne
    | cons r rs => exact ⟨r, rs, hrest.symm⟩
  · rintro ⟨r, rs, h⟩
    refine ⟨⟨r :: rs, h.symm⟩, fun heq => ?_⟩
    rw [heq] at h
    exact absurd (List.append_right_eq_self.mp h.symm) (List.cons_ne_nil r rs)

/-- Some of the first parts of a path are those of a path on the way to it. -/
theorem exists_isOnWayTo {p : String} {qs : List String} {r : String} {rs : List String}
    (hne : qs ≠ []) (h : parts p = qs ++ r :: rs) : ∃ q, parts q = qs ∧ IsOnWayTo q p := by
  obtain ⟨n, hn⟩ := Nat.exists_eq_succ_of_ne_zero (mt List.length_eq_zero_iff.mp hne)
  obtain ⟨ds, hds⟩ := Text.exists_splitAt_eq_take '.' p.toList n
  have hparts : parts (String.ofList ds) = qs := by
    rw [parts, String.toList_ofList, hds, List.map_take, ← parts, h, ← Nat.succ_eq_add_one, ← hn,
      List.take_left]
  exact ⟨_, hparts, isOnWayTo_iff.mpr ⟨r, rs, hparts.symm ▸ h⟩⟩

/-! ### Setting a value -/

variable {s : Settings}

theorem get?_eq (h : s.document.IsTree) (path : String) :
    s.get? path = s.document.root.at? ((parts path).map .text) := by
  rw [get?, h.at?_eq, keys_eq]

theorem isTree_set (h : s.document.IsTree) {v : Value} (hv : v.isTree = true) (path : String) :
    (s.set path v).document.IsTree := h.put hv isTree_of_mem_keys

theorem get?_set (h : s.document.IsTree) {v : Value} (hv : v.isTree = true) (p q : String) :
    (s.set p v).get? q =
      (s.document.root.put v ((parts p).map .text)).at? ((parts q).map .text) := by
  rw [get?_eq (isTree_set h hv p), set, h.put_eq, keys_eq]

/-- Setting a value shows at its path, beyond it and on the way to it, where sections are
made if there are none, and nowhere else. -/
theorem set_changes_one_path (h : s.document.IsTree) {v : Value} (hv : v.isTree = true)
    (p : String) :
    (s.set p v).get? p = some v ∧
      (∀ q rest, parts q = parts p ++ rest → ∀ fallback,
        (s.set p v).getD q fallback = (v.at? (rest.map .text)).getD fallback) ∧
      (∀ q, ¬ parts p <+: parts q → ¬ parts q <+: parts p → ∀ fallback,
        (s.set p v).getD q fallback = s.getD q fallback) ∧
      (∀ q, IsOnWayTo q p → ∃ es, (s.set p v).get? q = some (.map es)) ∧
      (s.set p v).document.IsTree := by
  have hbeyond : ∀ q rest, parts q = parts p ++ rest →
      (s.set p v).get? q = v.at? (rest.map .text) := by
    intro q rest hq
    rw [get?_set h hv, hq, List.map_append, Value.at?_put_append]
  refine ⟨hbeyond p [] (List.append_nil _).symm, ?_, ?_, ?_, isTree_set h hv p⟩
  · intro q rest hq fallback
    rw [getD, hbeyond q rest hq]
  · intro q hpq hqp fallback
    rw [getD, getD, get?_set h hv, get?_eq h, Value.at?_put_of_not_prefix _ _ hpq hqp]
  · intro q hq
    obtain ⟨r, rs, hp⟩ := isOnWayTo_iff.mp hq
    rw [get?_set h hv, hp, List.map_append, List.map_cons]
    exact Value.exists_at?_put _ _ _ _ _

theorem isTree_defaults : defaults.document.IsTree := ⟨rfl, by decide⟩

/-- The file name on the way is replaced by a section. -/
theorem set_changes_one_path_replaced :
    let v : Value := .map [(.text "name", .text "out"), (.int 1, .null)]
    let s := defaults.set "output.path.parts" v
    s.get? "output.path.parts" = some v ∧
      s.getD "output.path.parts.name" .null = .text "out" ∧
      s.getD "storage.data_dir" .null = .text "data" ∧
      ∃ es, s.get? "output.path" = some (.map es) := by
  intro v s
  have hpath : parts "output.path.parts" = ["output", "path", "parts"] := by decide
  have hname : parts "output.path.parts.name" = ["output", "path", "parts", "name"] := by decide
  have hway : parts "output.path" = ["output", "path"] := by decide
  have hbeside : parts "storage.data_dir" = ["storage", "data_dir"] := by decide
  obtain ⟨hself, hbeyond, hframe, hsections, -⟩ :=
    set_changes_one_path isTree_defaults (by decide : v.isTree = true) "output.path.parts"
  refine ⟨hself, ?_, ?_, hsections "output.path" ?_⟩
  · rw [hbeyond "output.path.parts.name" ["name"] (by rw [hname, hpath]; rfl)]
    rfl
  · rw [hframe "storage.data_dir" (by rw [hpath, hbeside]; decide) (by rw [hpath, hbeside]; decide)]
    cbv
  · rw [IsOnWayTo, hway, hpath]
    decide

end Settings

end Conjunctive
