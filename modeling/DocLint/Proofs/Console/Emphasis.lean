import Mathlib.Data.List.Chain
import Mathlib.Order.Bounds.Defs
import DocLint.Console.Emphasis

/-!
# What is highlighted

A type is looked for from the left, and behind an occurrence of it from its end on (`Emphasis.IsHit`). The marked
characters are those that lie in such an occurrence of some type (`Emphasis.marks_eq_true_iff`), so the marks depend on
nothing but the set of types that are not empty (`Emphasis.marks_congr`). The runs of marked and unmarked characters
alternate and make up the text (`Emphasis.flatMap_runs`, `Emphasis.isChain_runs`), and a terminal shows the marked runs,
and nothing else, in red (`Emphasis.shown_flatMap_written`).
-/

namespace DocLint
namespace Emphasis

/-! ## Marks -/

/-- The places of the leftmost occurrences of `needle` in `s` from `start` on that do not overlap: the first one, and
behind each the first one that does not begin before its end. -/
inductive IsHit (needle s : Text) (start : Nat) : Nat → Prop
  | first {i : Nat} (h : IsLeast {k | start ≤ k ∧ needle <+: s.drop k} i) : IsHit needle s start i
  | next {i j : Nat} (h : IsHit needle s start i)
      (hj : IsLeast {k | i + needle.length ≤ k ∧ needle <+: s.drop k} j) : IsHit needle s start j

/-- The character at the place `i` lies in one of the leftmost occurrences of a type that is not empty. -/
def IsCovered (types : List Text) (s : Text) (i : Nat) : Prop :=
  ∃ type ∈ types, type ≠ [] ∧ ∃ n, IsHit type s 0 n ∧ n ≤ i ∧ i < n + type.length

section Hits

variable {needle s : Text} {start n : Nat}

theorem IsHit.occurs (h : IsHit needle s start n) : needle <+: s.drop n := by
  cases h with
  | first h => exact h.1.2
  | next _ h => exact h.1.2

theorem IsHit.start_le (h : IsHit needle s start n) : start ≤ n := by
  induction h with
  | first h => exact h.1.1
  | next _ h ih => exact Nat.le_trans ih (Nat.le_trans (Nat.le_add_right _ _) h.1.1)

/-- Where the text does not occur, the search goes on with the next place. -/
theorem isHit_succ (h : ¬ needle <+: s.drop start) : IsHit needle s start n ↔ IsHit needle s (start + 1) n := by
  have hset : {k | start ≤ k ∧ needle <+: s.drop k} = {k | start + 1 ≤ k ∧ needle <+: s.drop k} := by
    ext k
    refine and_congr_left fun hk => ⟨fun hle => Nat.lt_of_le_of_ne hle ?_, Nat.le_of_succ_le⟩
    rintro rfl
    exact h hk
  constructor <;> intro hit
  · induction hit with
    | first hleast => exact .first (hset ▸ hleast)
    | next _ hleast ih => exact .next ih hleast
  · induction hit with
    | first hleast => exact .first (hset ▸ hleast)
    | next _ hleast ih => exact .next ih hleast

/-- Where the text occurs, the search goes on behind it. -/
theorem isHit_of_occurs (h : needle <+: s.drop start) :
    IsHit needle s start n ↔ n = start ∨ IsHit needle s (start + needle.length) n := by
  have hfirst : IsHit needle s start start := .first ⟨⟨Nat.le_refl _, h⟩, fun _ hk => hk.1⟩
  constructor
  · intro hit
    induction hit with
    | first hleast => exact .inl (Nat.le_antisymm (hleast.2 ⟨Nat.le_refl _, h⟩) hleast.1.1)
    | next _ hleast ih =>
      rcases ih with rfl | ih
      · exact .inr (.first hleast)
      · exact .inr (.next ih hleast)
  · rintro (rfl | hit)
    · exact hfirst
    · induction hit with
      | first hleast => exact .next hfirst hleast
      | next _ hleast ih => exact .next ih hleast

theorem length_marksFrom (needle : Text) : ∀ (inside : Nat) (rest : Text),
    (marksFrom needle inside rest).length = rest.length
  | _, [] => rfl
  | inside + 1, _ :: rest => congrArg (· + 1) (length_marksFrom needle inside rest)
  | 0, c :: rest => by
    rw [marksFrom]
    split <;> exact congrArg (· + 1) (length_marksFrom needle _ rest)

/-- The marks of one type, in the part of a text from the place `pos` on. -/
theorem marksFrom_eq_true_iff (hne : needle ≠ []) {rest : Text} {pos : Nat} (hrest : s.drop pos = rest) (inside i : Nat) :
    (marksFrom needle inside rest)[i]? = some true ↔ i < rest.length ∧
      (i < inside ∨ ∃ n, IsHit needle s (pos + inside) n ∧ n ≤ pos + i ∧ pos + i < n + needle.length) := by
  have hlength : 0 < needle.length := List.length_pos_iff_ne_nil.2 hne
  induction rest generalizing pos inside i with
  | nil => simp [marksFrom]
  | cons c rest ih =>
    have htail : s.drop (pos + 1) = rest := by rw [← List.tail_drop, hrest, List.tail_cons]
    -- A place behind the first one is a place of the rest, where the search stands one further.
    have hstep : ∀ i, pos + 1 + i = pos + (i + 1) := fun i => by omega
    cases inside with
    | succ inside =>
      rw [marksFrom]
      cases i with
      | zero => simp
      | succ i =>
        refine (ih htail inside i).trans ?_
        rw [hstep, hstep, List.length_cons, Nat.add_lt_add_iff_right, Nat.add_lt_add_iff_right]
    | zero =>
      rw [marksFrom, Nat.add_zero]
      by_cases hocc : needle <+: s.drop pos
      · rw [if_pos (List.isPrefixOf_iff_prefix.2 (hrest ▸ hocc))]
        cases i with
        | zero =>
          have hhit : IsHit needle s pos pos := (isHit_of_occurs hocc).2 (.inl rfl)
          exact iff_of_true rfl ⟨Nat.zero_lt_succ _, .inr ⟨pos, hhit, Nat.le_refl _, by omega⟩⟩
        | succ i =>
          have hbehind : pos + 1 + (needle.length - 1) = pos + needle.length := by omega
          refine (ih htail (needle.length - 1) i).trans ?_
          rw [hbehind, List.length_cons, Nat.add_lt_add_iff_right, hstep]
          refine and_congr_right fun _ => ?_
          simp only [isHit_of_occurs hocc, Nat.not_lt_zero, false_or, or_and_right, exists_or, exists_eq_left]
          refine or_congr_left ?_
          omega
      · rw [if_neg (fun h => hocc (hrest ▸ List.isPrefixOf_iff_prefix.1 h))]
        cases i with
        | zero =>
          refine iff_of_false (by simp) ?_
          rintro ⟨-, hlt | ⟨n, hhit, hle, -⟩⟩
          · exact Nat.not_lt_zero _ hlt
          · have heq : n = pos := Nat.le_antisymm hle hhit.start_le
            exact hocc (heq ▸ hhit.occurs)
        | succ i =>
          refine (ih htail 0 i).trans ?_
          rw [List.length_cons, Nat.add_lt_add_iff_right, hstep i, Nat.add_zero]
          simp only [isHit_succ hocc, Nat.not_lt_zero, false_or]

end Hits

section Marks

variable {types types' : List Text} {s : Text}

theorem zipWith_or_eq_true_iff {as bs : List Bool} (h : as.length = bs.length) (i : Nat) :
    (List.zipWith (· || ·) as bs)[i]? = some true ↔ as[i]? = some true ∨ bs[i]? = some true := by
  rw [List.getElem?_zipWith]
  by_cases hi : i < as.length
  · rw [List.getElem?_eq_getElem hi, List.getElem?_eq_getElem (h ▸ hi)]
    simp
  · rw [List.getElem?_eq_none (Nat.le_of_not_lt hi)]
    rw [List.getElem?_eq_none (h ▸ Nat.le_of_not_lt hi)]
    simp

/-- The marks of several types, added to earlier ones. -/
theorem foldl_marks (types : List Text) (marked : List Bool) (h : marked.length = s.length) :
    (types.foldl (fun marked type => List.zipWith (· || ·) marked (marksFrom type 0 s)) marked).length = s.length ∧
      ∀ i : Nat,
        (types.foldl (fun marked type => List.zipWith (· || ·) marked (marksFrom type 0 s)) marked)[i]? = some true ↔
          marked[i]? = some true ∨ ∃ type ∈ types, (marksFrom type 0 s)[i]? = some true := by
  induction types generalizing marked with
  | nil => exact ⟨h, fun i => by simp⟩
  | cons type types ih =>
    have hsame : marked.length = (marksFrom type 0 s).length := by rw [h, length_marksFrom]
    obtain ⟨hlength, hmarks⟩ := ih (List.zipWith (· || ·) marked (marksFrom type 0 s))
      (by rw [List.length_zipWith, ← hsame, Nat.min_self, h])
    refine ⟨hlength, fun i => (hmarks i).trans ?_⟩
    rw [zipWith_or_eq_true_iff hsame, or_assoc]
    simp

theorem length_marks (types : List Text) (s : Text) : (marks types s).length = s.length :=
  (foldl_marks _ _ (List.length_map _)).1

/-- **A character is marked when it lies in a leftmost occurrence of a type.** -/
theorem marks_eq_true_iff (i : Nat) : (marks types s)[i]? = some true ↔ IsCovered types s i := by
  rw [marks, (foldl_marks _ _ (List.length_map _)).2]
  have hnone : (s.map fun _ => false)[i]? ≠ some true := by
    rw [List.getElem?_map]
    cases s[i]? <;> simp
  rw [or_iff_right hnone]
  refine exists_congr fun type => ?_
  simp only [List.mem_filter, Bool.not_eq_true', List.isEmpty_eq_false_iff, and_assoc]
  refine and_congr_right fun _ => and_congr_right fun hne => ?_
  rw [marksFrom_eq_true_iff hne (List.drop_zero)]
  simp only [Nat.not_lt_zero, false_or, Nat.zero_add]
  refine and_iff_right_of_imp ?_
  rintro ⟨n, hhit, -, hlt⟩
  have hfits := hhit.occurs.length_le
  have hpos : 0 < type.length := List.length_pos_iff_ne_nil.2 hne
  rw [List.length_drop] at hfits
  omega

/-- **Only the set of types that are not empty counts**, not their order nor how often they are listed. -/
theorem marks_congr (h : ∀ type, type ≠ [] → (type ∈ types' ↔ type ∈ types)) (s : Text) :
    marks types' s = marks types s := by
  have hcovered : ∀ i, IsCovered types' s i ↔ IsCovered types s i := fun i =>
    exists_congr fun type => by
      constructor
      · exact fun ⟨hmem, hne, hit⟩ => ⟨(h type hne).1 hmem, hne, hit⟩
      · exact fun ⟨hmem, hne, hit⟩ => ⟨(h type hne).2 hmem, hne, hit⟩
  refine List.ext_getElem (by rw [length_marks, length_marks]) fun i hi hi' => ?_
  have hiff : (marks types' s)[i]? = some true ↔ (marks types s)[i]? = some true := by
    rw [marks_eq_true_iff, marks_eq_true_iff, hcovered]
  rw [List.getElem?_eq_getElem hi, List.getElem?_eq_getElem hi', Option.some_inj, Option.some_inj] at hiff
  exact Bool.eq_iff_iff.2 hiff

end Marks

/-! ## Runs -/

section Runs

/-- The characters of a run, each with the mark of the run. -/
def spread (run : Text × Bool) : List (Char × Bool) := run.1.map (·, run.2)

theorem runs_cons (c : Char) (marked : Bool) (rest : List (Char × Bool)) :
    (∃ run others, runs rest = (run, marked) :: others ∧ runs ((c, marked) :: rest) = (c :: run, marked) :: others) ∨
      (∀ first ∈ (runs rest).head?, first.2 ≠ marked) ∧ runs ((c, marked) :: rest) = ([c], marked) :: runs rest := by
  rw [runs]
  match runs rest with
  | [] => exact .inr ⟨by simp, rfl⟩
  | (run, mark) :: others =>
    by_cases h : mark = marked
    · subst h
      exact .inl ⟨run, others, rfl, if_pos rfl⟩
    · refine .inr ⟨by simpa using h, ?_⟩
      dsimp only
      rw [if_neg h]

/-- The runs in order are the marked characters. -/
theorem flatMap_runs (pairs : List (Char × Bool)) : (runs pairs).flatMap spread = pairs := by
  induction pairs with
  | nil => rfl
  | cons pair rest ih =>
    obtain ⟨c, marked⟩ := pair
    rcases runs_cons c marked rest with ⟨run, others, hrest, heq⟩ | ⟨-, heq⟩
    · rw [hrest, List.flatMap_cons] at ih
      rw [heq, List.flatMap_cons, ← ih]
      rfl
    · rw [heq, List.flatMap_cons, ih]
      rfl

theorem ne_nil_of_mem_runs {pairs : List (Char × Bool)} : ∀ run ∈ runs pairs, run.1 ≠ [] := by
  induction pairs with
  | nil => exact fun _ h => by cases h
  | cons pair rest ih =>
    obtain ⟨c, marked⟩ := pair
    rcases runs_cons c marked rest with ⟨run, others, hrest, heq⟩ | ⟨-, heq⟩
    · rw [heq]
      rw [hrest] at ih
      exact List.forall_mem_cons.2 ⟨List.cons_ne_nil _ _, (List.forall_mem_cons.1 ih).2⟩
    · rw [heq]
      exact List.forall_mem_cons.2 ⟨List.cons_ne_nil _ _, ih⟩

/-- A run ends where the mark changes. -/
theorem isChain_runs (pairs : List (Char × Bool)) : (runs pairs).IsChain fun run next => run.2 ≠ next.2 := by
  induction pairs with
  | nil => exact .nil
  | cons pair rest ih =>
    obtain ⟨c, marked⟩ := pair
    rcases runs_cons c marked rest with ⟨run, others, hrest, heq⟩ | ⟨hchange, heq⟩
    · rw [hrest, List.isChain_cons] at ih
      rw [heq, List.isChain_cons]
      exact ih
    · rw [heq, List.isChain_cons]
      exact ⟨fun first hfirst => (hchange first hfirst).symm, ih⟩

end Runs

/-! ## What is shown -/

section Shown

variable {types : List Text} {s : Text}

/-- The characters that a terminal shows for a text, each with whether it is red: the sequences for red and for the end
of all colors are not shown. -/
def shown : (red : Bool) → Text → List (Char × Bool)
  | _, '\x1b' :: '[' :: '3' :: '1' :: 'm' :: rest => shown true rest
  | _, '\x1b' :: '[' :: '0' :: 'm' :: rest => shown false rest
  | red, c :: rest => (c, red) :: shown red rest
  | _, [] => []

/-- A run as it is written: the color is set before it and reset behind it if it is marked. -/
def written (run : Text × Bool) : Text := if run.2 then Color.red.start ++ run.1 ++ Color.reset else run.1

theorem shown_append_of_not_mem {s : Text} (h : Color.escape ∉ s) (red : Bool) (rest : Text) :
    shown red (s ++ rest) = s.map (·, red) ++ shown red rest := by
  induction s with
  | nil => rfl
  | cons c s ih =>
    have hc : c ≠ '\x1b' := fun heq => h (heq ▸ List.mem_cons_self)
    rw [List.cons_append, shown, ih (List.not_mem_of_not_mem_cons h)]
    · rfl
    · rintro tail rfl
      exact absurd rfl hc
    · rintro tail rfl
      exact absurd rfl hc

theorem shown_flatMap_written {pieces : List (Text × Bool)} (h : ∀ run ∈ pieces, Color.escape ∉ run.1) :
    shown false (pieces.flatMap written) = pieces.flatMap spread := by
  induction pieces with
  | nil => rfl
  | cons run pieces ih =>
    obtain ⟨hrun, hpieces⟩ := List.forall_mem_cons.1 h
    obtain ⟨text, _ | _⟩ := run
    · rw [List.flatMap_cons, List.flatMap_cons, ← ih hpieces]
      exact shown_append_of_not_mem hrun false _
    · have hred : written (text, true) ++ pieces.flatMap written =
          Color.red.start ++ (text ++ (Color.reset ++ pieces.flatMap written)) := by simp [written]
      rw [List.flatMap_cons, List.flatMap_cons, ← ih hpieces, hred]
      exact shown_append_of_not_mem hrun true _

theorem renewed_of_not_mem (color : Color) {s : Text} (h : Color.escape ∉ s) : color.renewed s = s := by
  induction s with
  | nil => rfl
  | cons c s ih =>
    have hc : c ≠ '\x1b' := fun heq => h (heq ▸ List.mem_cons_self)
    rw [Color.renewed, ih (List.not_mem_of_not_mem_cons h)]
    rintro tail rfl
    exact absurd rfl hc

theorem zip_marks_fst (types : List Text) (s : Text) : (s.zip (marks types s)).map (·.1) = s :=
  List.map_fst_zip (Nat.le_of_eq (length_marks types s).symm)

theorem fst_flatMap_runs (types : List Text) (s : Text) :
    (runs (s.zip (marks types s))).flatMap (·.1) = s := by
  have h := congrArg (List.map (·.1)) (flatMap_runs (s.zip (marks types s)))
  rw [zip_marks_fst, List.map_flatMap] at h
  simpa [spread, Function.comp_def] using h

theorem not_mem_of_mem_runs (h : Color.escape ∉ s) : ∀ run ∈ runs (s.zip (marks types s)), Color.escape ∉ run.1 :=
  fun run hrun hmem => h (fst_flatMap_runs types s ▸ List.mem_flatMap.2 ⟨run, hrun, hmem⟩)

/-- Without colors the text is written as it is. -/
theorem render_false (types : List Text) (s : Text) : render false types s = s := by
  have hplain : ∀ run : Text × Bool, (if run.2 then Color.red.paint false run.1 else run.1) = run.1 := by
    simp [Color.paint]
  rw [render]
  simp only [hplain]
  exact fst_flatMap_runs types s

/-- With colors each run is written once. -/
theorem render_true (h : Color.escape ∉ s) :
    render true types s = (runs (s.zip (marks types s))).flatMap written := by
  refine List.flatMap_congr fun run hrun => ?_
  simp only [written, Color.paint, if_pos, renewed_of_not_mem _ (not_mem_of_mem_runs h run hrun)]

theorem shown_render (h : Color.escape ∉ s) : shown false (render true types s) = s.zip (marks types s) := by
  rw [render_true h, shown_flatMap_written (not_mem_of_mem_runs h), flatMap_runs]

/-- The red characters are the marked ones. -/
theorem shown_render_eq_true_iff (h : Color.escape ∉ s) (i : Nat) :
    ((shown false (render true types s))[i]?).map (·.2) = some true ↔ IsCovered types s i := by
  rw [shown_render h, ← List.getElem?_map, List.map_snd_zip (Nat.le_of_eq (length_marks types s)), marks_eq_true_iff]

end Shown

end Emphasis
end DocLint
