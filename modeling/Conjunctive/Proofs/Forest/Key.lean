import Conjunctive.Forest.Key
import Conjunctive.Proofs.Lists

/-!
# Keys tell sets of names apart

A key is read back from the left. The written form of a character is followed by
anything and still found again (`escape_append_inj`): it is the character itself, or
a backslash with a letter, or a backslash with a unit of fixed length, and characters
are never halves of a pair of units. No written form begins with a quotation mark, so
the end of a name is found, and after each name a comma or the bracket tells whether
another one follows. Hence a key has the names in order, which are the same for two
lists just if the lists have the same names (`canonicalKey_eq_iff`).
-/

namespace Conjunctive

namespace Text

/-! ### Hexadecimal -/

theorem digitChar_inj {m n : Nat} (hm : m < 16) (hn : n < 16)
    (h : m.digitChar = n.digitChar) : m = n := by
  have hall : ∀ i < 16, ∀ j < 16, i.digitChar = j.digitChar → i = j := by decide
  exact hall m hm n hn h

theorem hex_one {n : Nat} (h : n < 16) : hex 1 n = [n.digitChar] := by
  unfold hex
  rw [Nat.toDigits_of_lt_base h]
  rfl

/-- The last digit of a number in hexadecimal. -/
theorem hex_succ (width n : Nat) :
    hex (width + 2) n = hex (width + 1) (n / 16) ++ [(n % 16).digitChar] := by
  unfold hex
  dsimp only
  by_cases h : n < 16
  · rw [Nat.toDigits_of_lt_base h, Nat.div_eq_of_lt h, Nat.mod_eq_of_lt h, Nat.toDigits_zero]
    simp [List.replicate_succ']
  · rw [Nat.toDigits_of_base_le (by decide) (by omega), List.length_append, List.length_singleton,
      Nat.succ_sub_succ, List.append_assoc]

theorem length_hex (width : Nat) {n : Nat} (h : n < 16 ^ (width + 1)) :
    (hex (width + 1) n).length = width + 1 := by
  have hlength := (Nat.length_toDigits_le_iff (b := 16) (by decide) (Nat.succ_pos width)).mpr h
  unfold hex
  rw [List.length_append, List.length_replicate]
  omega

theorem hex_inj {width m n : Nat} (hm : m < 16 ^ (width + 1)) (hn : n < 16 ^ (width + 1))
    (h : hex (width + 1) m = hex (width + 1) n) : m = n := by
  induction width generalizing m n with
  | zero =>
      rw [hex_one hm, hex_one hn] at h
      exact digitChar_inj hm hn (List.cons.inj h).1
  | succ width ih =>
      rw [hex_succ, hex_succ] at h
      obtain ⟨hinit, hlast⟩ := List.append_inj' h rfl
      have hdiv := ih (Nat.div_lt_of_lt_mul (by rwa [Nat.pow_succ'] at hm))
        (Nat.div_lt_of_lt_mul (by rwa [Nat.pow_succ'] at hn)) hinit
      have hmod := digitChar_inj (Nat.mod_lt m (by decide)) (Nat.mod_lt n (by decide))
        (List.cons.inj hlast).1
      rw [← Nat.div_add_mod m 16, ← Nat.div_add_mod n 16, hdiv, hmod]

/-! ### Characters -/

/-- A UTF-16 unit in hexadecimal, with what announces it. -/
def unitEscape (u : Nat) : List Char := '\\' :: 'u' :: hex 4 u

theorem unitEscape_append_inj {u v : Nat} (hu : u < 0x10000) (hv : v < 0x10000)
    {s t : List Char} (h : unitEscape u ++ s = unitEscape v ++ t) : u = v ∧ s = t := by
  obtain ⟨hunit, hrest⟩ := List.append_inj h (by
    simp only [unitEscape, List.length_cons, length_hex 3 hu, length_hex 3 hv])
  exact ⟨hex_inj hu hv (List.cons.inj (List.cons.inj hunit).2).2, hrest⟩

/-- The character that is escaped by a letter or by itself. -/
def unletter (x : Char) : Char :=
  match x with
  | 'n' => '\n'
  | 'r' => '\r'
  | 't' => '\t'
  | 'f' => '\x0c'
  | 'b' => '\x08'
  | _ => x

/-- The three written forms of characters. -/
theorem escape_cases (c : Char) :
    (escape c = [c] ∧ c ≠ '\\' ∧ c ≠ quotationMark) ∨
      (∃ x, escape c = ['\\', x] ∧ x ≠ 'u' ∧ unletter x = c) ∨
      escape c = (units16 c).flatMap unitEscape := by
  unfold escape
  split_ifs with hself hn hr ht hf hb hplain
  · refine Or.inr (Or.inl ⟨c, rfl, ?_⟩)
    rcases hself with rfl | rfl <;> decide
  · exact Or.inr (Or.inl ⟨'n', rfl, by decide, hn.symm⟩)
  · exact Or.inr (Or.inl ⟨'r', rfl, by decide, hr.symm⟩)
  · exact Or.inr (Or.inl ⟨'t', rfl, by decide, ht.symm⟩)
  · exact Or.inr (Or.inl ⟨'f', rfl, by decide, hf.symm⟩)
  · exact Or.inr (Or.inl ⟨'b', rfl, by decide, hb.symm⟩)
  · exact Or.inl ⟨rfl, fun h => hself (Or.inr h), fun h => hself (Or.inl h)⟩
  · exact Or.inr (Or.inr rfl)

/-- No character is half of a pair of units. -/
theorem toNat_not_surrogate (c : Char) :
    c.toNat < 0xD800 ∨ 0xDFFF < c.toNat ∧ c.toNat < 0x110000 := c.valid

/-- The units of characters are told apart. -/
theorem units16_append_inj {c d : Char} {s t : List Char}
    (h : (units16 c).flatMap unitEscape ++ s = (units16 d).flatMap unitEscape ++ t) :
    c = d ∧ s = t := by
  have hc := toNat_not_surrogate c
  have hd := toNat_not_surrogate d
  unfold units16 at h
  dsimp only at h
  split_ifs at h with hshort hshort' hshort' <;>
    simp only [List.flatMap_cons, List.flatMap_nil, List.append_nil, List.append_assoc] at h
  · obtain ⟨hunit, hrest⟩ := unitEscape_append_inj hshort hshort' h
    exact ⟨Char.toNat_inj.mp hunit, hrest⟩
  · obtain ⟨hunit, -⟩ := unitEscape_append_inj hshort (by omega) h
    omega
  · obtain ⟨hunit, -⟩ := unitEscape_append_inj (by omega) hshort' h
    omega
  · obtain ⟨hhigh, h⟩ := unitEscape_append_inj (by omega) (by omega) h
    obtain ⟨hlow, hrest⟩ := unitEscape_append_inj (by omega) (by omega) h
    exact ⟨Char.toNat_inj.mp (by omega), hrest⟩

/-- Units are announced. -/
theorem exists_units16_escape_eq (c : Char) :
    ∃ rest, (units16 c).flatMap unitEscape = '\\' :: 'u' :: rest := by
  obtain ⟨u, us, hunits⟩ : ∃ u us, units16 c = u :: us := by
    unfold units16
    dsimp only
    split_ifs
    · exact ⟨_, _, rfl⟩
    · exact ⟨_, _, rfl⟩
  rw [hunits, List.flatMap_cons]
  exact ⟨_, rfl⟩

/-- A text that begins with the written form of a character begins with no other. -/
theorem escape_append_inj {c d : Char} {s t : List Char} (h : escape c ++ s = escape d ++ t) :
    c = d ∧ s = t := by
  obtain ⟨rest, hrest⟩ := exists_units16_escape_eq c
  obtain ⟨rest', hrest'⟩ := exists_units16_escape_eq d
  rcases escape_cases c with ⟨hc, hcb, -⟩ | ⟨x, hc, hxu, rfl⟩ | hc <;>
    rcases escape_cases d with ⟨hd, hdb, -⟩ | ⟨y, hd, hyu, rfl⟩ | hd <;> rw [hc, hd] at h
  · exact List.cons.inj h
  · exact absurd (List.cons.inj h).1 hcb
  · rw [hrest'] at h
    exact absurd (List.cons.inj h).1 hcb
  · exact absurd (List.cons.inj h).1.symm hdb
  · obtain ⟨hxy, hst⟩ := List.cons.inj (List.cons.inj h).2
    exact ⟨congrArg unletter hxy, hst⟩
  · rw [hrest'] at h
    exact absurd (List.cons.inj (List.cons.inj h).2).1 hxu
  · rw [hrest] at h
    exact absurd (List.cons.inj h).1.symm hdb
  · rw [hrest] at h
    exact absurd (List.cons.inj (List.cons.inj h).2).1.symm hyu
  · exact units16_append_inj h

/-- A quotation mark begins no written form of a character. -/
theorem escape_append_ne (c : Char) (s t : List Char) : escape c ++ s ≠ quotationMark :: t := by
  obtain ⟨rest, hrest⟩ := exists_units16_escape_eq c
  intro h
  rcases escape_cases c with ⟨hc, -, hquote⟩ | ⟨x, hc, -, -⟩ | hc <;> rw [hc] at h
  · exact hquote (List.cons.inj h).1
  · exact absurd (List.cons.inj h).1 (by decide)
  · rw [hrest] at h
    exact absurd (List.cons.inj h).1 (by decide)

/-! ### Texts -/

theorem flatMap_escape_append_inj {cs ds s t : List Char}
    (h : cs.flatMap escape ++ quotationMark :: s = ds.flatMap escape ++ quotationMark :: t) :
    cs = ds ∧ s = t := by
  induction cs generalizing ds with
  | nil =>
      cases ds with
      | nil => exact ⟨rfl, (List.cons.inj h).2⟩
      | cons d ds =>
          rw [List.flatMap_cons, List.append_assoc] at h
          exact absurd h.symm (escape_append_ne d _ _)
  | cons c cs ih =>
      rw [List.flatMap_cons, List.append_assoc] at h
      cases ds with
      | nil => exact absurd h (escape_append_ne c _ _)
      | cons d ds =>
          rw [List.flatMap_cons, List.append_assoc] at h
          obtain ⟨rfl, hrest⟩ := escape_append_inj h
          obtain ⟨rfl, hst⟩ := ih hrest
          exact ⟨rfl, hst⟩

theorem toList_escaped (a : String) :
    (escaped a).toList = quotationMark :: a.toList.flatMap escape ++ [quotationMark] :=
  String.toList_ofList

/-- A text that begins with the written form of a text begins with no other. -/
theorem escaped_append_inj {a b : String} {s t : List Char}
    (h : (escaped a).toList ++ s = (escaped b).toList ++ t) : a = b ∧ s = t := by
  simp only [toList_escaped, List.cons_append, List.append_assoc, List.nil_append] at h
  obtain ⟨hchars, hrest⟩ := flatMap_escape_append_inj (List.cons.inj h).2
  exact ⟨String.toList_inj.mp hchars, hrest⟩

/-- The written forms of some texts with commas between them, up to a bracket. -/
theorem intercalate_escaped_inj {as bs : List String}
    (h : (String.intercalate ", " (as.map escaped)).toList ++ [']'] =
      (String.intercalate ", " (bs.map escaped)).toList ++ [']']) : as = bs := by
  -- what follows the first text is the bracket, or a comma and the other texts
  have hsplit : ∀ (a : String) (as : List String),
      ∃ rest, (String.intercalate ", " ((a :: as).map escaped)).toList ++ [']'] =
        (escaped a).toList ++ rest ∧
      (as = [] ∧ rest = [']'] ∨ as ≠ [] ∧
        rest = ',' :: ' ' :: ((String.intercalate ", " (as.map escaped)).toList ++ [']'])) := by
    intro a as
    cases as with
    | nil => exact ⟨[']'], by simp, Or.inl ⟨rfl, rfl⟩⟩
    | cons b as =>
        refine ⟨_, ?_, Or.inr ⟨List.cons_ne_nil b as, rfl⟩⟩
        rw [List.map_cons, List.map_cons, String.intercalate_cons_cons]
        simp
  have hquote : ∀ (a : String) (as : List String) (s : List Char),
      (String.intercalate ", " ((a :: as).map escaped)).toList ++ [']'] ≠ ']' :: s := by
    intro a as s hs
    obtain ⟨rest, hrest, -⟩ := hsplit a as
    rw [hrest, toList_escaped] at hs
    exact absurd (List.cons.inj hs).1 (by decide)
  induction as generalizing bs with
  | nil =>
      cases bs with
      | nil => rfl
      | cons b bs => exact absurd h.symm (hquote b bs _)
  | cons a as ih =>
      cases bs with
      | nil => exact absurd h (hquote a as _)
      | cons b bs =>
          obtain ⟨rest, hrest, hcases⟩ := hsplit a as
          obtain ⟨rest', hrest', hcases'⟩ := hsplit b bs
          rw [hrest, hrest'] at h
          obtain ⟨rfl, hreq⟩ := escaped_append_inj h
          rcases hcases with ⟨rfl, rfl⟩ | ⟨-, rfl⟩ <;> rcases hcases' with ⟨rfl, rfl⟩ | ⟨-, rfl⟩
          · rfl
          · exact absurd (List.cons.inj hreq).1 (by decide)
          · exact absurd (List.cons.inj hreq).1 (by decide)
          · rw [ih (List.cons.inj (List.cons.inj hreq).2).2]

end Text

/-! ### Sets of names -/

theorem mem_sortedNames {names : List String} {x : String} : x ∈ sortedNames names ↔ x ∈ names := by
  rw [sortedNames, List.mem_mergeSort, List.mem_eraseDups]

/-- The names in order depend only on which names there are. -/
theorem sortedNames_eq_iff {as bs : List String} :
    sortedNames as = sortedNames bs ↔ ∀ x, x ∈ as ↔ x ∈ bs := by
  constructor
  · intro h x
    rw [← mem_sortedNames, h, mem_sortedNames]
  · intro h
    have hperm : as.eraseDups.Perm bs.eraseDups :=
      (List.perm_ext_iff_of_nodup (nodup_eraseDups as) (nodup_eraseDups bs)).mpr fun x => by
        rw [List.mem_eraseDups, List.mem_eraseDups, h]
    have hsorted : ∀ names : List String, (sortedNames names).Pairwise (· ≤ ·) := by
      intro names
      refine (List.pairwise_mergeSort (fun a b c hab hbc => ?_) (fun a b => ?_)
        names.eraseDups).imp of_decide_eq_true
      · exact decide_eq_true (String.le_trans (of_decide_eq_true hab) (of_decide_eq_true hbc))
      · rw [Bool.or_eq_true, decide_eq_true_iff, decide_eq_true_iff]
        exact String.le_total a b
    refine List.Perm.eq_of_pairwise (fun a b _ _ hab hba => String.le_antisymm hab hba)
      (hsorted as) (hsorted bs) ?_
    exact ((List.mergeSort_perm _ _).trans hperm).trans (List.mergeSort_perm _ _).symm

/-- Lists of names have one key if and only if they are the same set of names. -/
theorem canonicalKey_eq_iff {as bs : List String} :
    canonicalKey as = canonicalKey bs ↔ ∀ x, x ∈ as ↔ x ∈ bs := by
  rw [← sortedNames_eq_iff]
  constructor
  · intro h
    have htext := congrArg String.toList h
    simp only [canonicalKey, String.toList_append, List.append_assoc] at htext
    exact Text.intercalate_escaped_inj (List.append_cancel_left htext)
  · intro h
    rw [canonicalKey, canonicalKey, h]

end Conjunctive
