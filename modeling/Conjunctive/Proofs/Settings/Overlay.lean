import Conjunctive.Proofs.Settings.Path

/-!
# Settings with a document laid over them

What a setting is after a document was laid over the settings is told by what the two have
at its path. What the document has there lies over what the settings have. If it has
nothing there, the setting stays as it was, unless it is hidden: on the way to it the
document has a value that is no section, or a section where the settings have a value that
is none.
-/

namespace Conjunctive

namespace Value

theorem at?_map_entries (v : Value) {ks : List Value} (h : ks ≠ []) :
    (map v.entries).at? ks = v.at? ks := by
  cases ks with
  | nil => exact absurd rfl h
  | cons k ks => rfl

end Value

namespace Settings

/-- Whether a document hides a setting. -/
def HiddenBy (o : Document) (s : Settings) (p : String) : Prop :=
  ∃ q, IsOnWayTo q p ∧ ∃ w, o.at? (keys q) = some w ∧
    (w.isMap = false ∨ ∃ u, s.get? q = some u ∧ u.isMap = false)

variable {s : Settings} {o : Document}

theorem map_parts_ne_nil (p : String) : (parts p).map Value.text ≠ [] :=
  mt List.map_eq_nil_iff.mp (parts_ne_nil p)

/-- On a way there are no more places than those of the paths on it. -/
theorem hiddenBy_iff (h : s.document.IsTree) (ho : o.IsTree) (p : String) :
    HiddenBy o s p ↔ Value.Hides (some (.map s.document.root.entries)) (.map o.root.entries)
      ((parts p).map .text) := by
  constructor
  · rintro ⟨q, hq, w, hw, hcase⟩
    obtain ⟨r, rs, hp⟩ := isOnWayTo_iff.mp hq
    rw [ho.at?_eq, keys_eq] at hw
    simp only [get?_eq h] at hcase
    refine ⟨(parts q).map .text, .text r, rs.map .text, w, ?_, ?_, ?_⟩
    · rw [hp, List.map_append, List.map_cons]
    · rw [Value.at?_map_entries _ (map_parts_ne_nil q), hw]
    · simpa only [Option.bind_some, Value.at?_map_entries _ (map_parts_ne_nil q)] using hcase
  · rintro ⟨hs, l, ls, w, hks, hw, hcase⟩
    obtain ⟨qs, rest, hp, rfl, hrest⟩ := List.map_eq_append_iff.mp hks
    obtain ⟨r, rs, rfl, -, -⟩ := List.map_eq_cons_iff.mp hrest
    by_cases hne : qs = []
    · -- the roots are sections, and hide nothing
      subst hne
      cases hw
      rcases hcase with hmap | ⟨u, hu, hmap⟩
      · cases hmap
      · cases hu
        cases hmap
    · obtain ⟨q, rfl, hq⟩ := exists_isOnWayTo hne hp
      refine ⟨q, hq, w, ?_, ?_⟩
      · rw [ho.at?_eq, keys_eq, ← hw, Value.at?_map_entries _ (map_parts_ne_nil q)]
      · simpa only [get?_eq h, Option.bind_some,
          Value.at?_map_entries _ (map_parts_ne_nil q)] using hcase

/-- The settings with a document laid over them. -/
def overlaid (s : Settings) (file : String) (o : Document) : Settings :=
  ⟨⟨.map (Value.overlay s.document.root.entries o.root.entries), s.document.parts⟩, some file⟩

theorem read_eq (h : s.document.IsTree) (ho : o.IsTree) (file : String) :
    s.read file o = (s.overlaid file o, none) := by
  rw [read, h.overlay_eq ho]
  rfl

theorem isTree_overlaid (h : s.document.IsTree) (ho : o.IsTree) (file : String) :
    (s.overlaid file o).document.IsTree :=
  ⟨h.parts_eq, Value.haveTrees_overlay (Value.haveTrees_entries ho.root)
    (Value.haveTrees_entries h.root)⟩

theorem get?_overlaid (h : s.document.IsTree) (ho : o.IsTree) (file p : String) :
    (s.overlaid file o).get? p = (Value.above (some (.map s.document.root.entries))
      (.map o.root.entries)).at? ((parts p).map .text) :=
  get?_eq (isTree_overlaid h ho file) p

/-- What the document has lies over what the settings have. -/
theorem get?_overlaid_of_some (h : s.document.IsTree) (ho : o.IsTree) (file : String) {p : String}
    {w : Value} (hw : o.at? (keys p) = some w) :
    (s.overlaid file o).get? p = some (Value.above (s.get? p) w) := by
  have hne := map_parts_ne_nil p
  have hroot : (Value.map o.root.entries).isTree = true := Value.haveTrees_entries ho.root
  rw [ho.at?_eq, keys_eq, ← Value.at?_map_entries _ hne] at hw
  rw [get?_overlaid h ho, Value.at?_above_of_some hroot hw, get?_eq h, Option.bind_some,
    Value.at?_map_entries _ hne]

/-- Where the document has nothing, the setting is hidden or as before. -/
theorem get?_overlaid_of_none (h : s.document.IsTree) (ho : o.IsTree) (file : String) {p : String}
    (hp : o.at? (keys p) = none) :
    (HiddenBy o s p → (s.overlaid file o).get? p = none) ∧
      (¬ HiddenBy o s p → (s.overlaid file o).get? p = s.get? p) := by
  have hne := map_parts_ne_nil p
  have hroot : (Value.map o.root.entries).isTree = true := Value.haveTrees_entries ho.root
  rw [ho.at?_eq, keys_eq, ← Value.at?_map_entries _ hne] at hp
  rw [hiddenBy_iff h ho, get?_overlaid h ho, get?_eq h]
  refine ⟨Value.at?_above_of_hides hroot hp, fun hnot => ?_⟩
  rw [Value.at?_above_of_none hroot hp hnot, Option.bind_some, Value.at?_map_entries _ hne]

theorem overlaid_overlaid (ho : o.IsTree) (s : Settings) (file : String) :
    (s.overlaid file o).overlaid file o = s.overlaid file o := by
  rw [overlaid, overlaid, Value.entries,
    Value.overlay_overlay (Value.haveTrees_entries ho.root)]

/-- Reading a document lays it over the settings path by path. A value that is no section
replaces what there was. A section lies over a section, and replaces anything else. A
setting that the document does not have stays, unless it is hidden. To read the same
again changes nothing. -/
theorem read_overlays_by_path (h : s.document.IsTree) (ho : o.IsTree) (file : String) :
    ∃ s', s.read file o = (s', none) ∧ s'.source = some file ∧ s'.document.IsTree ∧
      (∀ p v, o.at? (keys p) = some v → v.isMap = false → s'.get? p = some v) ∧
      (∀ p es fs, o.at? (keys p) = some (.map es) → s.get? p = some (.map fs) →
        s'.get? p = some (.map (Value.overlay fs es))) ∧
      (∀ p es, o.at? (keys p) = some (.map es) → (∀ fs, s.get? p ≠ some (.map fs)) →
        s'.get? p = some (.map es)) ∧
      (∀ p, o.at? (keys p) = none →
        (HiddenBy o s p → s'.get? p = none) ∧ (¬ HiddenBy o s p → s'.get? p = s.get? p)) ∧
      s'.read file o = (s', none) := by
  have htree := isTree_overlaid h ho file
  refine ⟨s.overlaid file o, read_eq h ho file, rfl, htree, ?_, ?_, ?_,
    fun p => get?_overlaid_of_none h ho file, ?_⟩
  · intro p v hv hmap
    rw [get?_overlaid_of_some h ho file hv, Value.above_of_isMap_eq_false _ hmap]
  · intro p es fs hes hfs
    rw [get?_overlaid_of_some h ho file hes, hfs, Value.above]
  · intro p es hes hnone
    rw [get?_overlaid_of_some h ho file hes, Value.above_of_forall_ne hnone]
  · rw [read_eq htree ho, overlaid_overlaid ho]

/-- One section lies over another, one takes the place of a text, and a section is gone
under a text. -/
theorem read_overlays_by_path_defaults :
    let o : Document := ⟨ofKeys [
      ("storage", ofKeys [("delimiter", .text ";"), ("relations", ofKeys [("R", .text "r.csv")])]),
      ("evaluation", .text "off"),
      ("output", ofKeys [("path", ofKeys [("name", .text "out")])])], #[]⟩
    ∃ s, defaults.read "settings" o = (s, none) ∧
      s.get? "storage.delimiter" = some (.text ";") ∧
      s.get? "storage.relations" = some (ofKeys [("R", .text "r.csv")]) ∧
      s.get? "output.path" = some (ofKeys [("name", .text "out")]) ∧
      s.get? "evaluation.distinct" = none ∧
      s.get? "storage.data_dir" = some (.text "data") ∧
      s.read "settings" o = (s, none) := by
  intro o
  have ho : o.IsTree := ⟨rfl, by decide⟩
  obtain ⟨s, hread, -, -, hvalue, hboth, hsection, hnothing, hagain⟩ :=
    read_overlays_by_path isTree_defaults ho "settings"
  refine ⟨s, hread, hvalue _ _ (by cbv) rfl,
    hboth "storage.relations" [(.text "R", .text "r.csv")] [] (by cbv) (by cbv),
    hsection "output.path" _ (by cbv) ?_, ?_, ?_, hagain⟩
  · have hpath : defaults.get? "output.path" = some (.text "output.csv") := by cbv
    intro fs hfs
    rw [hpath] at hfs
    cases hfs
  · exact (hnothing "evaluation.distinct" (by cbv)).1
      ⟨"evaluation", ⟨by decide, by decide⟩, .text "off", by cbv, Or.inl rfl⟩
  · have hparts : parts "storage.data_dir" = ["storage", "data_dir"] := by decide
    rw [(hnothing "storage.data_dir" (by cbv)).2]
    · cbv
    · rintro ⟨q, hq, w, hw, hcase⟩
      -- only the section of both is on the way
      have hkeys : keys q = [.text "storage"] := by
        obtain ⟨r, rs, hp⟩ := isOnWayTo_iff.mp hq
        obtain ⟨a, qs, hqs⟩ := List.exists_cons_of_ne_nil (parts_ne_nil q)
        rw [hparts, hqs] at hp
        rw [keys_eq, hqs]
        cases qs with
        | nil =>
            rw [← (List.cons.inj hp).1]
            rfl
        | cons b qs => simp at hp
      rw [get?, hkeys] at hcase
      rw [hkeys] at hw
      cases hw
      rcases hcase with hmap | ⟨u, hu, hmap⟩
      · cases hmap
      · cases hu
        cases hmap

end Settings

end Conjunctive
