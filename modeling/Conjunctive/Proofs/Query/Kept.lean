import Conjunctive.Proofs.Query.Cutting

/-!
# What cutting a text keeps

Cutting a text into queries loses nothing but comments and blanks and puts in nothing
but single spaces, whatever the text is. `Splitting.kept` says what is kept of a line
and marks the dots that end queries. `Splitting.Gathers` says what becomes of marked
characters: the queries that end in a marked dot, and what is gathered after the last
of these. The lines of a text are gathered that way (`exists_gathers`), so what holds
of `Gathers` holds of the queries of a text (`splitQueries_keeps`).
-/

namespace Conjunctive

namespace Splitting

open Text

/-! ### What is kept of a line -/

/-- Where a line stands after one more character. -/
def Mode.next : Mode → Char → Mode
  | .plain, c =>
    if c = apostrophe ∨ c = quotationMark then .quoted c false
    else if Token.isCommentSign c then .comment
    else .plain
  | .quoted quote escaped, c =>
    if escaped then .quoted quote false
    else if c = '\\' then .quoted quote true
    else if c = quote then .plain
    else .quoted quote false
  | .comment, _ => .comment

/-- Whether a character is a dot that ends a query: one outside quotes that does not
stand between two digits. -/
def endsQuery (before : Option Char) (mode : Mode) (c : Char) (after : Option Char) : Bool :=
  match mode with
  | .plain => decide (c = '.' ∧ ¬ (isDigit? before ∧ isDigit? after))
  | _ => false

/-- What is kept of a line: the characters in front of a comment, each with a mark that
says whether it ends a query. -/
def kept (before : Option Char) (mode : Mode) : List Char → List (Char × Bool)
  | [] => []
  | c :: cs =>
    match mode.next c with
    | .comment => []
    | next => (c, endsQuery before mode c cs.head?) :: kept (some c) next cs

/-- What is kept of the lines of a text. -/
def keptOfText (cs : List Char) : List (Char × Bool) :=
  (Text.lines cs).flatMap (kept none .plain)

theorem kept_cons (before : Option Char) {mode : Mode} {c : Char} (h : mode.next c ≠ .comment)
    (cs : List Char) : kept before mode (c :: cs) =
      (c, endsQuery before mode c cs.head?) :: kept (some c) (mode.next c) cs := by
  rw [kept]
  split
  next heq => exact absurd heq h
  next => rfl

theorem kept_cons_of_comment (before : Option Char) {mode : Mode} {c : Char}
    (h : mode.next c = .comment) (cs : List Char) : kept before mode (c :: cs) = [] := by
  rw [kept, h]

theorem mem_of_mem_kept {before : Option Char} {mode : Mode} {cs : List Char}
    {m : Char × Bool} (h : m ∈ kept before mode cs) : m.1 ∈ cs := by
  induction cs generalizing before mode with
  | nil => cases h
  | cons c cs ih =>
      by_cases hcomment : mode.next c = .comment
      · rw [kept_cons_of_comment before hcomment] at h
        cases h
      · rw [kept_cons before hcomment] at h
        rcases List.mem_cons.mp h with rfl | h
        · exact List.mem_cons_self
        · exact List.mem_cons_of_mem c (ih h)

/-- Characters none of which ends a query. -/
def unmarked (cs : List Char) : List (Char × Bool) := cs.map fun c => (c, false)

theorem map_fst_unmarked (cs : List Char) : (unmarked cs).map Prod.fst = cs := by
  rw [unmarked, List.map_map]
  exact List.map_id cs

/-! ### Gathering marked characters -/

/-- What becomes of marked characters after what was gathered of a query: the queries
that end in a marked dot, and what is gathered of the next one. -/
inductive Gathers : List Char → List (Char × Bool) → List (List Char) → List Char → Prop
  | nil (gathered : List Char) : Gathers gathered [] [] gathered
  | piece {gathered : List Char} (piece : List Char) {ms : List (Char × Bool)}
      {queries : List (List Char)} {left : List Char}
      (h : Gathers (extend gathered piece) ms queries left) :
      Gathers gathered (unmarked piece ++ ms) queries left
  | query {gathered : List Char} (piece : List Char) {ms : List (Char × Bool)}
      {queries : List (List Char)} {left : List Char} (h : Gathers [] ms queries left) :
      Gathers gathered (unmarked piece ++ ('.', true) :: ms)
        (extend gathered (piece ++ ['.']) :: queries) left

namespace Gathers

variable {gathered left left' : List Char} {ms ms' : List (Char × Bool)}
  {queries queries' : List (List Char)}

theorem append (h : Gathers gathered ms queries left) (h' : Gathers left ms' queries' left') :
    Gathers gathered (ms ++ ms') (queries ++ queries') left' := by
  induction h with
  | nil gathered => exact h'
  | piece piece _ ih =>
      rw [List.append_assoc]
      exact .piece piece (ih h')
  | query piece _ ih =>
      rw [List.append_assoc, List.cons_append, List.cons_append]
      exact .query piece (ih h')

end Gathers

/-- What is kept of a line from some place on is gathered from there. -/
def GathersLine (gathered piece : List Char) (before : Option Char) (mode : Mode)
    (line : List Char) : Prop :=
  ∃ queries left, Gathers gathered (unmarked piece ++ kept before mode line) queries left ∧
    ∀ lines, resume gathered piece before mode line lines = queries ++ gather left lines

namespace GathersLine

variable {gathered piece : List Char} {before : Option Char} {mode : Mode} {c : Char}
  {line : List Char}

/-- At the end of what is kept of a line, the piece at hand is gathered. -/
theorem stop (hkept : kept before mode line = [])
    (hresume : ∀ lines, resume gathered piece before mode line lines =
      gather (extend gathered piece) lines) : GathersLine gathered piece before mode line := by
  refine ⟨[], extend gathered piece, ?_, hresume⟩
  rw [hkept]
  exact .piece piece (.nil _)

/-- A character that is kept and ends no query joins the piece at hand. -/
theorem keep {next : Mode} (hnext : mode.next c = next) (hkept : next ≠ .comment)
    (hends : endsQuery before mode c line.head? = false)
    (hresume : ∀ lines, resume gathered piece before mode (c :: line) lines =
      resume gathered (piece ++ [c]) (some c) next line lines)
    (h : GathersLine gathered (piece ++ [c]) (some c) next line) :
    GathersLine gathered piece before mode (c :: line) := by
  obtain ⟨queries, left, hgathers, hrest⟩ := h
  refine ⟨queries, left, ?_, fun lines => (hresume lines).trans (hrest lines)⟩
  rw [kept_cons before (hnext ▸ hkept), hends, hnext]
  rw [unmarked, List.map_append, List.append_assoc] at hgathers
  exact hgathers

/-- A dot that ends a query ends the piece at hand with it. -/
theorem cut (hdot : ¬ (isDigit? before ∧ isDigit? line.head?))
    (h : GathersLine [] [] (some '.') .plain line) :
    GathersLine gathered piece before .plain ('.' :: line) := by
  obtain ⟨queries, left, hgathers, hrest⟩ := h
  have hnext : Mode.plain.next '.' = .plain := rfl
  have hends : endsQuery before .plain '.' line.head? = true := decide_eq_true ⟨rfl, hdot⟩
  refine ⟨extend gathered (piece ++ ['.']) :: queries, left, ?_, fun lines => ?_⟩
  · rw [kept_cons before (by rw [hnext]; nofun), hends, hnext]
    exact .query piece hgathers
  · rw [resume_plain, if_neg (by decide), if_neg (by decide), if_pos ⟨rfl, hdot⟩, hrest]
    rfl

end GathersLine

/-- From some place in a line on, one character after the other is gathered. -/
theorem gathersLine (gathered piece : List Char) (before : Option Char) (mode : Mode)
    (line : List Char) : GathersLine gathered piece before mode line := by
  induction line generalizing gathered piece before mode with
  | nil => exact .stop rfl fun lines => resume_nil mode
  | cons c line ih =>
      cases mode with
      | comment => exact .stop rfl fun lines => rfl
      | quoted q escaped =>
          refine .keep rfl ?_ rfl (fun lines => resume_quoted q escaped) (ih ..)
          rw [Mode.next]
          split_ifs <;> nofun
      | plain =>
          by_cases hquote : c = apostrophe ∨ c = quotationMark
          · refine .keep (if_pos hquote) nofun ?_ (fun lines => ?_) (ih ..)
            · rcases hquote with rfl | rfl <;> rfl
            · rw [resume_plain, if_pos hquote]
          by_cases hsign : Token.isCommentSign c = true
          · have hnext : Mode.plain.next c = .comment := (if_neg hquote).trans (if_pos hsign)
            refine .stop (kept_cons_of_comment before hnext line) fun lines => ?_
            rw [resume_plain, if_neg hquote, if_pos hsign]
            rfl
          by_cases hdot : c = '.' ∧ ¬ (isDigit? before ∧ isDigit? line.head?)
          · obtain ⟨rfl, hdigits⟩ := hdot
            exact .cut hdigits (ih ..)
          · have hnext : Mode.plain.next c = .plain := (if_neg hquote).trans (if_neg hsign)
            refine .keep hnext nofun (decide_eq_false hdot) (fun lines => ?_) (ih ..)
            rw [resume_plain, if_neg hquote, if_neg hsign, if_neg hdot]

/-- The lines of a text are gathered one after the other. -/
theorem exists_gathers (gathered : List Char) (lines : List (List Char)) : ∃ queries left,
    Gathers gathered (lines.flatMap (kept none .plain)) queries left ∧
      ∀ more, gather gathered (lines ++ more) = queries ++ gather left more := by
  induction lines generalizing gathered with
  | nil => exact ⟨[], gathered, .nil gathered, fun more => rfl⟩
  | cons line lines ih =>
      obtain ⟨queries, left, hline, hresume⟩ := gathersLine gathered [] none .plain line
      obtain ⟨queries', left', hlines, hmore⟩ := ih left
      refine ⟨queries ++ queries', left', ?_, fun more => ?_⟩
      · rw [List.flatMap_cons]
        exact hline.append hlines
      · rw [List.cons_append, gather_cons, List.append_assoc, ← hmore]
        exact hresume (lines ++ more)

/-! ### What gathering keeps -/

theorem extend_eq (gathered piece : List Char) : extend gathered piece =
    if strip piece = [] then gathered
    else if gathered = [] then strip piece else gathered ++ ' ' :: strip piece := by
  rw [extend]
  split
  next hnil => rw [if_pos hnil]
  next hne => rw [if_neg hne]

theorem unblanked_extend (gathered piece : List Char) :
    unblanked (extend gathered piece) = unblanked gathered ++ unblanked piece := by
  rw [extend_eq, ← unblanked_strip piece]
  split_ifs with hpiece hgathered
  · rw [hpiece, unblanked_nil, List.append_nil]
  · rw [hgathered, unblanked_nil, List.nil_append]
  · rw [List.append_cons, unblanked_append, unblanked_append]
    change unblanked gathered ++ [] ++ _ = _
    rw [List.append_nil]

theorem extend_eq_nil_iff {gathered piece : List Char} :
    extend gathered piece = [] ↔ gathered = [] ∧ unblanked piece = [] := by
  rw [extend_eq, ← strip_eq_nil_iff]
  split_ifs with hpiece hgathered <;> simp [*]

theorem getLast?_extend_dot (gathered piece : List Char) :
    (extend gathered (piece ++ ['.'])).getLast? = some '.' := by
  rw [extend_eq, strip_concat piece (by decide), if_neg (by simp)]
  split_ifs
  · exact List.getLast?_concat
  · rw [← List.cons_append, ← List.append_assoc]
    exact List.getLast?_concat

/-- A text in one line without blanks at its ends. -/
structure Tidy (cs : List Char) : Prop where
  head : ∀ c ∈ cs.head?, isBlank c = false
  last : ∀ c ∈ cs.getLast?, isBlank c = false
  line : ∀ c ∈ cs, isBoundary c = false

theorem Tidy.nil : Tidy [] := ⟨nofun, nofun, nofun⟩

theorem Tidy.extend {gathered piece : List Char} (h : Tidy gathered)
    (hpiece : ∀ c ∈ piece, isBoundary c = false) : Tidy (extend gathered piece) := by
  have hstrip : Tidy (strip piece) :=
    ⟨fun _ => isBlank_of_mem_head?_strip, fun _ => isBlank_of_mem_getLast?_strip,
      fun c hc => hpiece c (mem_of_mem_strip hc)⟩
  rw [extend_eq]
  split_ifs with hnil hgathered
  · exact h
  · exact hstrip
  · refine ⟨?_, ?_, ?_⟩
    · rw [List.head?_append_of_ne_nil _ hgathered]
      exact h.head
    · rw [List.getLast?_append_of_ne_nil _ (List.cons_ne_nil _ _),
        List.getLast?_cons_of_ne_nil hnil]
      exact hstrip.last
    · simp only [List.mem_append, List.mem_cons]
      rintro c (hc | rfl | hc)
      · exact h.line c hc
      · rfl
      · exact hstrip.line c hc

/-- The marked characters that are not blank. -/
def solid (ms : List (Char × Bool)) : List (Char × Bool) := ms.filter fun m => !isBlank m.1

theorem solid_unmarked_eq_nil_iff {cs : List Char} :
    solid (unmarked cs) = [] ↔ unblanked cs = [] := by
  rw [solid, unmarked, List.filter_map, List.map_eq_nil_iff]
  rfl

/-- The last character that is not blank ends a query, if there is one. -/
def EndsAtDot (ms : List (Char × Bool)) : Prop := ∀ m ∈ (solid ms).getLast?, m.2 = true

instance (ms : List (Char × Bool)) : Decidable (EndsAtDot ms) :=
  inferInstanceAs (Decidable (∀ m ∈ (solid ms).getLast?, m.2 = true))

theorem endsAtDot_of_solid_eq_nil {ms : List (Char × Bool)} (h : solid ms = []) :
    EndsAtDot ms := by
  rw [EndsAtDot, h]
  nofun

theorem solid_append (ms ms' : List (Char × Bool)) : solid (ms ++ ms') = solid ms ++ solid ms' :=
  List.filter_append ms ms'

theorem endsAtDot_append {ms ms' : List (Char × Bool)} (h : solid ms' ≠ []) :
    EndsAtDot (ms ++ ms') ↔ EndsAtDot ms' := by
  rw [EndsAtDot, solid_append, List.getLast?_append_of_ne_nil _ h]
  rfl

/-- Unmarked characters end at no dot, unless they are blank. -/
theorem endsAtDot_unmarked_append_iff {cs : List Char} {ms : List (Char × Bool)}
    (h : solid ms = []) : EndsAtDot (unmarked cs ++ ms) ↔ unblanked cs = [] := by
  rw [EndsAtDot, solid_append, h, List.append_nil, ← solid_unmarked_eq_nil_iff]
  constructor
  · intro hlast
    refine List.getLast?_eq_none_iff.mp (Option.eq_none_iff_forall_not_mem.mpr fun m hm => ?_)
    obtain ⟨c, -, rfl⟩ := List.mem_map.mp (List.mem_of_mem_filter (List.mem_of_mem_getLast? hm))
    exact Bool.false_ne_true (hlast _ hm)
  · intro hnil
    rw [hnil]
    nofun

namespace Gathers

variable {gathered left : List Char} {ms : List (Char × Bool)} {queries : List (List Char)}

/-- Gathering loses only blanks and puts in only blanks. -/
theorem unblanked_eq (h : Gathers gathered ms queries left) :
    unblanked (queries.flatten ++ left) = unblanked (gathered ++ ms.map Prod.fst) := by
  induction h with
  | nil gathered => simp
  | piece piece _ ih =>
      rw [ih, unblanked_append, unblanked_extend, List.map_append, map_fst_unmarked,
        ← unblanked_append, ← unblanked_append, List.append_assoc]
  | query piece _ ih =>
      rw [List.flatten_cons, List.append_assoc, unblanked_append, ih, unblanked_extend,
        ← unblanked_append, ← unblanked_append, List.map_append, map_fst_unmarked]
      simp only [List.append_assoc]
      rfl

theorem getLast?_eq_dot (h : Gathers gathered ms queries left) :
    ∀ query ∈ queries, query.getLast? = some '.' := by
  induction h with
  | nil gathered => nofun
  | piece piece _ ih => exact ih
  | query piece _ ih => exact List.forall_mem_cons.mpr ⟨getLast?_extend_dot _ piece, ih⟩

theorem tidy (h : Gathers gathered ms queries left) (hgathered : Tidy gathered)
    (hms : ∀ m ∈ ms, isBoundary m.1 = false) : (∀ query ∈ queries, Tidy query) ∧ Tidy left := by
  induction h with
  | nil gathered => exact ⟨nofun, hgathered⟩
  | piece piece _ ih =>
      rw [List.forall_mem_append, unmarked, List.forall_mem_map] at hms
      exact ih (hgathered.extend hms.1) hms.2
  | query piece _ ih =>
      rw [List.forall_mem_append, unmarked, List.forall_mem_map, List.forall_mem_cons] at hms
      obtain ⟨hpiece, hdot, hms⟩ := hms
      have hquery : Tidy (extend _ (piece ++ ['.'])) := hgathered.extend fun c hc => by
        rcases List.mem_append.mp hc with hc | hc
        · exact hpiece c hc
        · rwa [List.mem_singleton.mp hc]
      exact ⟨List.forall_mem_cons.mpr ⟨hquery, (ih .nil hms).1⟩, (ih .nil hms).2⟩

/-- Nothing is left if the last character that is not blank ends a query. -/
theorem eq_nil_iff (h : Gathers gathered ms queries left) :
    left = [] ↔ EndsAtDot ms ∧ (solid ms = [] → gathered = []) := by
  induction h with
  | nil gathered => simp [EndsAtDot, solid]
  | @piece gathered piece ms _ _ _ ih =>
      rw [ih, extend_eq_nil_iff]
      by_cases hms : solid ms = []
      · have hdot := endsAtDot_of_solid_eq_nil hms
        rw [endsAtDot_unmarked_append_iff hms, solid_append, hms, List.append_nil,
          solid_unmarked_eq_nil_iff]
        tauto
      · rw [endsAtDot_append hms, solid_append]
        simp [hms]
  | @query gathered piece ms _ _ _ ih =>
      have hsolid : solid (('.', true) :: ms) = ('.', true) :: solid ms := rfl
      rw [ih, endsAtDot_append (by simp [hsolid]), solid_append, hsolid]
      by_cases hms : solid ms = []
      · simp [EndsAtDot, hsolid, hms]
      · rw [← List.singleton_append, endsAtDot_append hms]
        simp

end Gathers

/-! ### What cutting keeps -/

/-- A text is cut into what is gathered from its lines. -/
theorem exists_gathers_text (cs : List Char) : ∃ queries left,
    Gathers [] (keptOfText cs) queries left ∧
      gather [] (Text.lines cs) = queries ++ if left = [] then [] else [left] := by
  obtain ⟨queries, left, h, hmore⟩ := exists_gathers [] (Text.lines cs)
  have hcut := hmore []
  rw [List.append_nil] at hcut
  exact ⟨queries, left, h, hcut⟩

theorem unblanked_gather (cs : List Char) :
    unblanked (gather [] (Text.lines cs)).flatten = unblanked ((keptOfText cs).map Prod.fst) := by
  obtain ⟨queries, left, h, hcut⟩ := exists_gathers_text cs
  have hleft : (if left = [] then [] else [left]).flatten = left := by
    split_ifs with hnil
    · rw [hnil, List.flatten_nil]
    · rw [List.flatten_singleton]
  rw [hcut, List.flatten_append, hleft]
  exact h.unblanked_eq

theorem tidy_of_mem_gather {cs piece : List Char} (h : piece ∈ gather [] (Text.lines cs)) :
    piece ≠ [] ∧ Tidy piece := by
  obtain ⟨queries, left, hgathers, hcut⟩ := exists_gathers_text cs
  obtain ⟨hqueries, hleft⟩ := hgathers.tidy .nil fun m hm => by
    obtain ⟨line, hline, hm⟩ := List.mem_flatMap.mp hm
    exact isBoundary_of_mem_lines line hline m.1 (mem_of_mem_kept hm)
  rw [hcut] at h
  rcases List.mem_append.mp h with h | h
  · refine ⟨?_, hqueries piece h⟩
    rintro rfl
    cases hgathers.getLast?_eq_dot [] h
  · split_ifs at h with hnil
    · cases h
    · obtain rfl := List.mem_singleton.mp h
      exact ⟨hnil, hleft⟩

theorem getLast?_of_mem_dropLast_gather {cs piece : List Char}
    (h : piece ∈ (gather [] (Text.lines cs)).dropLast) : piece.getLast? = some '.' := by
  obtain ⟨queries, left, hgathers, hcut⟩ := exists_gathers_text cs
  refine hgathers.getLast?_eq_dot piece ?_
  rw [hcut] at h
  split_ifs at h with hnil
  · rw [List.append_nil] at h
    exact (List.dropLast_sublist _).mem h
  · rwa [List.dropLast_concat] at h

/-- A text that ends at a dot that ends a query is cut on its own, whatever follows on
further lines. -/
theorem gather_append_newline {cs : List Char} (h : EndsAtDot (keptOfText cs))
    (ds : List Char) : gather [] (Text.lines (cs ++ '\n' :: ds)) =
      gather [] (Text.lines cs) ++ gather [] (Text.lines ds) := by
  obtain ⟨queries, left, hgathers, hmore⟩ := exists_gathers [] (Text.lines cs)
  obtain rfl := hgathers.eq_nil_iff.mpr ⟨h, fun _ => rfl⟩
  have hcut : gather [] (Text.lines cs) = queries := by
    have hcut := hmore []
    rwa [List.append_nil, gather, if_pos rfl, List.append_nil] at hcut
  -- an empty line between the two texts adds nothing
  rcases lines_append_newline cs ds with hlines | hlines
  · rw [hlines, hmore, hcut]
  · rw [hlines, hmore, hcut, gather_cons, gatherFrom_nil, extend_nil]

end Splitting

/-- Cutting a text loses nothing that is kept of its lines and is not blank, and puts
nothing in. Its pieces are tidy, and all but perhaps the last end in a dot. If what is
kept ends at a dot that ends a query, further lines are cut on their own. -/
theorem splitQueries_keeps (text : String) :
    Text.unblanked ((splitQueries text).flatMap String.toList) =
        Text.unblanked ((Splitting.keptOfText text.toList).map Prod.fst) ∧
      (∀ piece ∈ splitQueries text, piece ≠ "" ∧ Splitting.Tidy piece.toList) ∧
      (∀ piece ∈ (splitQueries text).dropLast, piece.toList.getLast? = some '.') ∧
      (Splitting.EndsAtDot (Splitting.keptOfText text.toList) → ∀ others : String,
        splitQueries (text ++ "\n" ++ others) = splitQueries text ++ splitQueries others) := by
  refine ⟨?_, ?_, ?_, fun h others => ?_⟩
  · rw [← Splitting.unblanked_gather, splitQueries, List.flatMap_map, ← List.flatMap_id]
    simp only [String.toList_ofList]
    rfl
  · rw [splitQueries, List.forall_mem_map]
    intro piece hpiece
    rw [String.toList_ofList, Ne, String.ofList_eq_empty_iff]
    exact Splitting.tidy_of_mem_gather hpiece
  · rw [splitQueries, ← List.map_dropLast, List.forall_mem_map]
    intro piece hpiece
    rw [String.toList_ofList]
    exact Splitting.getLast?_of_mem_dropLast_gather hpiece
  · rw [splitQueries, splitQueries, splitQueries, String.toList_append, String.toList_append,
      ← List.map_append, ← Splitting.gather_append_newline h, List.append_assoc]
    rfl

/-- A comment may follow the dot at which a text ends. -/
theorem splitQueries_keeps_commented :
    Splitting.EndsAtDot (Splitting.keptOfText "p(X). % q.".toList) ∧ ∀ others : String,
      splitQueries ("p(X). % q." ++ "\n" ++ others) =
        splitQueries "p(X). % q." ++ splitQueries others := by
  have hdot : Splitting.EndsAtDot (Splitting.keptOfText "p(X). % q.".toList) := by decide
  exact ⟨hdot, (splitQueries_keeps "p(X). % q.").2.2.2 hdot⟩

end Conjunctive
