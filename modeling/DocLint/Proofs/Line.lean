import Mathlib.Data.List.Nodup
import DocLint.Line

/-!
# Cutting a content into lines

The lines of a content are the only ones that are cut as lines are (`Line.WellCut`) and give the content when they are
put together (`Line.ofContent_eq_iff`). They stay well cut when each gets a text that fits its ending (`Line.Fits`,
`Line.WellCut.map`). The lines without their endings are the texts of those with them (`Text.lines_eq`).
-/

namespace DocLint
namespace Line

/-! ## Raw lines -/

section Raw

/-- What holds of every content: of one without a line feed, and of one line more. -/
theorem content_induction {motive : Text → Prop} (last : ∀ s, '\n' ∉ s → motive s)
    (cons : ∀ s t, '\n' ∉ s → motive t → motive (s ++ '\n' :: t)) (content : Text) : motive content := by
  by_cases h : '\n' ∈ content
  · obtain ⟨s, t, heq, hs⟩ := List.eq_append_cons_of_mem h
    have hlt : t.length < content.length := by rw [heq]; simp; omega
    rw [heq]
    exact cons s t hs (content_induction last cons t)
  · exact last content h
termination_by content.length

theorem rawLines_append {s : Text} (h : '\n' ∉ s) (t : Text) :
    rawLines (s ++ '\n' :: t) = (s ++ ['\n']) :: rawLines t := by
  induction s with
  | nil => simp [rawLines]
  | cons c s ih =>
    have hc : c ≠ '\n' := fun heq => h (heq ▸ List.mem_cons_self)
    have hs : '\n' ∉ s := fun hm => h (List.mem_cons_of_mem _ hm)
    simp [rawLines, hc, ih hs, Text.consHead]

theorem rawLines_of_not_mem {s : Text} (h : '\n' ∉ s) (hne : s ≠ []) : rawLines s = [s] := by
  induction s with
  | nil => exact absurd rfl hne
  | cons c s ih =>
    have hc : c ≠ '\n' := fun heq => h (heq ▸ List.mem_cons_self)
    have hs : '\n' ∉ s := fun hm => h (List.mem_cons_of_mem _ hm)
    cases s with
    | nil => simp [rawLines, hc, Text.consHead]
    | cons d s => rw [rawLines, if_neg hc, ih hs (by simp)]; rfl

theorem ofRaw_crlf (number : Nat) (text : Text) : ofRaw number (text ++ crlf) = ⟨number, text, crlf⟩ := by
  have h : crlf.isSuffixOf? (text ++ crlf) = some text := List.isSuffixOf?_eq_some_iff_append_eq.2 rfl
  simp only [ofRaw, h]

theorem ofRaw_lf (number : Nat) {text : Text} (h : text.getLast? ≠ some '\r') :
    ofRaw number (text ++ lf) = ⟨number, text, lf⟩ := by
  have hcrlf : crlf.isSuffixOf? (text ++ lf) = none := by
    rw [Option.eq_none_iff_forall_ne_some]
    intro s hs
    have heq : (s ++ ['\r']) ++ ['\n'] = text ++ ['\n'] := by
      simpa [crlf, lf] using List.isSuffixOf?_eq_some_iff_append_eq.1 hs
    exact h (by rw [← List.append_cancel_right heq]; simp)
  have hlf : lf.isSuffixOf? (text ++ lf) = some text := List.isSuffixOf?_eq_some_iff_append_eq.2 rfl
  simp only [ofRaw, hcrlf, hlf]

theorem ofRaw_unended (number : Nat) {text : Text} (h : '\n' ∉ text) : ofRaw number text = ⟨number, text, []⟩ := by
  have hnone : ∀ {ending : Text}, '\n' ∈ ending → ending.isSuffixOf? text = none := by
    intro ending hm
    rw [Option.eq_none_iff_forall_ne_some]
    intro s hs
    rw [← List.isSuffixOf?_eq_some_iff_append_eq.1 hs] at h
    exact h (List.mem_append_right _ hm)
  have hcrlf : crlf.isSuffixOf? text = none := hnone (by decide)
  have hlf : lf.isSuffixOf? text = none := hnone (by decide)
  simp only [ofRaw, hcrlf, hlf]

end Raw

/-! ## Lines that are cut as lines are -/

section Cut

/-- Lines numbered from `number`: only the last one may be unended, and then it is not empty; a text has no line feed,
and before a bare one it does not end in a carriage return. -/
inductive WellCut : Nat → List Line → Prop
  | nil (number : Nat) : WellCut number []
  | unended (number : Nat) {text : Text} : '\n' ∉ text → text ≠ [] → WellCut number [⟨number, text, []⟩]
  | lf (number : Nat) {text : Text} {rest : List Line} : '\n' ∉ text → text.getLast? ≠ some '\r' →
      WellCut (number + 1) rest → WellCut number (⟨number, text, lf⟩ :: rest)
  | crlf (number : Nat) {text : Text} {rest : List Line} : '\n' ∉ text → WellCut (number + 1) rest →
      WellCut number (⟨number, text, crlf⟩ :: rest)

/-- The lines of a content, numbered from `number`. -/
def linesFrom (number : Nat) (content : Text) : List Line :=
  (rawLines content).mapIdx fun i raw => ofRaw (number + i) raw

theorem ofContent_eq_linesFrom (content : Text) : ofContent content = linesFrom 1 content := by
  simp only [ofContent, linesFrom, Nat.add_comm]

theorem linesFrom_append (number : Nat) {s : Text} (h : '\n' ∉ s) (t : Text) :
    linesFrom number (s ++ '\n' :: t) = ofRaw number (s ++ lf) :: linesFrom (number + 1) t := by
  simp only [linesFrom, rawLines_append h, List.mapIdx_cons, Nat.add_zero, Nat.add_right_comm, Nat.add_assoc]
  simp [lf]

theorem linesFrom_of_not_mem (number : Nat) {s : Text} (h : '\n' ∉ s) (hne : s ≠ []) :
    linesFrom number s = [⟨number, s, []⟩] := by
  simp [linesFrom, rawLines_of_not_mem h hne, ofRaw_unended number h]

/-- The lines of a content are well cut and give the content. -/
theorem linesFrom_wellCut (content : Text) :
    ∀ number, WellCut number (linesFrom number content) ∧ (linesFrom number content).flatMap raw = content := by
  refine content_induction (motive := fun content => ∀ number, WellCut number (linesFrom number content) ∧
    (linesFrom number content).flatMap raw = content) ?_ ?_ content
  · intro s hs number
    by_cases hne : s = []
    · subst hne
      exact ⟨.nil number, rfl⟩
    · rw [linesFrom_of_not_mem number hs hne]
      exact ⟨.unended number hs hne, by simp [raw]⟩
  · intro s t hs ih number
    obtain ⟨hcut, hflat⟩ := ih (number + 1)
    rw [linesFrom_append number hs, List.flatMap_cons, hflat]
    by_cases hcr : s.getLast? = some '\r'
    · obtain ⟨text, rfl⟩ := List.getLast?_eq_some_iff.1 hcr
      have hraw : text ++ ['\r'] ++ lf = text ++ crlf := by simp [lf, crlf]
      rw [hraw, ofRaw_crlf]
      exact ⟨.crlf number (fun hm => hs (List.mem_append_left _ hm)) hcut, by simp [raw, crlf]⟩
    · rw [ofRaw_lf number hcr]
      exact ⟨.lf number hs hcr hcut, by simp [raw, lf]⟩

/-- Lines that are well cut are the lines of what they give. -/
theorem WellCut.linesFrom_flatMap {number : Nat} {lines : List Line} (h : WellCut number lines) :
    linesFrom number (lines.flatMap raw) = lines := by
  induction h with
  | nil number => rfl
  | unended number hs hne =>
    simp only [List.flatMap_cons, List.flatMap_nil, raw, List.append_nil]
    exact linesFrom_of_not_mem number hs hne
  | @lf number text rest hs hcr _ ih =>
    have hraw : (⟨number, text, Line.lf⟩ :: rest : List Line).flatMap raw = text ++ '\n' :: rest.flatMap raw := by
      simp [raw, Line.lf]
    rw [hraw, linesFrom_append number hs, ofRaw_lf number hcr, ih]
  | @crlf number text rest hs _ ih =>
    have hraw : (⟨number, text, Line.crlf⟩ :: rest : List Line).flatMap raw =
        (text ++ ['\r']) ++ '\n' :: rest.flatMap raw := by simp [raw, Line.crlf]
    have hs' : '\n' ∉ text ++ ['\r'] := by simpa using hs
    have hend : text ++ ['\r'] ++ Line.lf = text ++ Line.crlf := by simp [Line.lf, Line.crlf]
    rw [hraw, linesFrom_append number hs', hend, ofRaw_crlf, ih]

/-- **The lines of a content** are those that are well cut and give it when they are put together. -/
theorem ofContent_eq_iff {content : Text} {lines : List Line} :
    ofContent content = lines ↔ WellCut 1 lines ∧ lines.flatMap raw = content := by
  rw [ofContent_eq_linesFrom]
  constructor
  · rintro rfl
    exact linesFrom_wellCut content 1
  · rintro ⟨hcut, rfl⟩
    exact hcut.linesFrom_flatMap

end Cut

/-! ## Other texts in the same lines -/

section Fitting

/-- The line can have this text instead of its own. -/
structure Fits (line : Line) (text : Text) : Prop where
  lineFeed : '\n' ∉ text
  carriageReturn : line.ending = lf → text.getLast? ≠ some '\r'
  unended : line.ending = [] → text ≠ []

/-- The texts of lines that are well cut fit them. -/
theorem WellCut.fits {number : Nat} {lines : List Line} (h : WellCut number lines) :
    ∀ line ∈ lines, line.Fits line.text := by
  induction h with
  | nil number => simp
  | unended number hs hne =>
    intro line hl
    obtain rfl := List.mem_singleton.1 hl
    exact ⟨hs, fun h => (by cases h), fun _ => hne⟩
  | lf number hs hcr _ ih =>
    rw [List.forall_mem_cons]
    exact ⟨⟨hs, fun _ => hcr, fun h => (by cases h)⟩, ih⟩
  | crlf number hs _ ih =>
    rw [List.forall_mem_cons]
    exact ⟨⟨hs, fun h => (by cases h), fun h => (by cases h)⟩, ih⟩

/-- Lines stay well cut when their texts are replaced by fitting ones. -/
theorem WellCut.map {number : Nat} {lines : List Line} (h : WellCut number lines) {f : Line → Text}
    (hf : ∀ line ∈ lines, line.Fits (f line)) :
    WellCut number (lines.map fun line => { line with text := f line }) := by
  induction h with
  | nil number => exact .nil number
  | @unended number text hs hne =>
    have hfit := hf _ List.mem_cons_self
    exact .unended number hfit.lineFeed (hfit.unended rfl)
  | @lf number text rest hs hcr _ ih =>
    have hfit := hf _ List.mem_cons_self
    exact .lf number hfit.lineFeed (hfit.carriageReturn rfl) (ih fun l hl => hf l (List.mem_cons_of_mem _ hl))
  | @crlf number text rest hs _ ih =>
    exact .crlf number (hf _ List.mem_cons_self).lineFeed (ih fun l hl => hf l (List.mem_cons_of_mem _ hl))

/-- The lines are numbered one after the other. -/
theorem WellCut.map_number {number : Nat} {lines : List Line} (h : WellCut number lines) :
    lines.map (·.number) = List.range' number lines.length := by
  induction h with
  | nil number => rfl
  | unended number _ _ => rfl
  | lf number _ _ _ ih | crlf number _ _ ih =>
    rw [List.map_cons, ih, List.length_cons, List.range'_succ]

theorem WellCut.pairwise_number {number : Nat} {lines : List Line} (h : WellCut number lines) :
    lines.Pairwise (·.number < ·.number) := by
  rw [← List.pairwise_map, h.map_number]
  exact List.pairwise_lt_range'

/-- Every line has a line feed or both characters as its ending, but for the last one, which may have none. -/
theorem WellCut.ending {number : Nat} {lines : List Line} (h : WellCut number lines) :
    (∀ line ∈ lines.dropLast, line.ending = Line.lf ∨ line.ending = Line.crlf) ∧
      ∀ line ∈ lines, line.ending ∈ [Line.lf, Line.crlf, []] := by
  have hcons : ∀ {first : Line} {rest : List Line}, (first.ending = Line.lf ∨ first.ending = Line.crlf) →
      ((∀ line ∈ rest.dropLast, line.ending = Line.lf ∨ line.ending = Line.crlf) ∧
        ∀ line ∈ rest, line.ending ∈ [Line.lf, Line.crlf, []]) →
      (∀ line ∈ (first :: rest).dropLast, line.ending = Line.lf ∨ line.ending = Line.crlf) ∧
        ∀ line ∈ first :: rest, line.ending ∈ [Line.lf, Line.crlf, []] := by
    rintro first rest hfirst ⟨hended, hany⟩
    refine ⟨fun line hl => ?_, List.forall_mem_cons.2 ⟨by simp [← or_assoc, hfirst], hany⟩⟩
    cases rest with
    | nil => cases hl
    | cons next rest =>
      rcases List.mem_cons.1 hl with rfl | hl
      · exact hfirst
      · exact hended line hl
  induction h with
  | nil number => exact ⟨by simp, by simp⟩
  | unended number _ _ => exact ⟨by simp, by simp⟩
  | lf number _ _ _ ih => exact hcons (.inl rfl) ih
  | crlf number _ _ ih => exact hcons (.inr rfl) ih

/-- A line of a content is known by its number. -/
theorem eq_of_number_eq {content : Text} {a b : Line} (ha : a ∈ ofContent content) (hb : b ∈ ofContent content)
    (h : a.number = b.number) : a = b := by
  refine List.inj_on_of_nodup_map ?_ ha hb h
  rw [(ofContent_eq_iff.1 rfl).1.map_number]
  exact List.nodup_range'

/-- The texts of a content's lines fit them. -/
theorem fits_of_mem {content : Text} {line : Line} (h : line ∈ ofContent content) : line.Fits line.text :=
  (ofContent_eq_iff.1 rfl).1.fits line h

end Fitting
end Line

/-! ## Texts without endings -/

namespace Text

theorem lines_of_not_mem {s : Text} (h : '\n' ∉ s) : lines s = if s.isEmpty then [] else [s] := by
  have hparts : s.splitOn '\n' = [s] :=
    List.splitOnP_eq_singleton fun c hc => beq_false_of_ne fun heq => h (heq ▸ hc)
  simp [lines, hparts]

/-- The first line goes without its ending. -/
theorem lines_append {s : Text} (h : '\n' ∉ s) (t : Text) :
    lines (s ++ '\n' :: t) = dropMarker ['\r'] s :: lines t := by
  have hfirst : s.splitOn '\n' = [s] :=
    List.splitOnP_eq_singleton fun c hc => beq_false_of_ne fun heq => h (heq ▸ hc)
  have hparts : (s ++ '\n' :: t).splitOn '\n' = s :: t.splitOn '\n' := by
    have happend := List.splitOnP_append_cons (p := (· == '\n')) s t (beq_self_eq_true '\n')
    rwa [← List.splitOn, ← List.splitOn, ← List.splitOn, hfirst, List.singleton_append] at happend
  have hne : t.splitOn '\n' ≠ [] := List.splitOnP_ne_nil _ t
  have hlast : (s :: t.splitOn '\n').getLastD [] = (t.splitOn '\n').getLastD [] := by
    rw [List.getLastD_cons, List.getLastD_eq_getLast?, List.getLastD_eq_getLast?, List.getLast?_eq_some_getLast hne]
    rfl
  simp only [lines, hparts, hlast, List.dropLast_cons_of_ne_nil hne, List.map_cons, List.cons_append]

/-- The text of a line is the same whether its ending is cut off or kept apart. -/
theorem dropMarker_eq_text (number : Nat) {s : Text} :
    dropMarker ['\r'] s = (Line.ofRaw number (s ++ Line.lf)).text := by
  by_cases hcr : s.getLast? = some '\r'
  · obtain ⟨text, rfl⟩ := List.getLast?_eq_some_iff.1 hcr
    have hraw : text ++ ['\r'] ++ Line.lf = text ++ Line.crlf := by simp [Line.lf, Line.crlf]
    have hmarker : ['\r'].isSuffixOf? (text ++ ['\r']) = some text := List.isSuffixOf?_eq_some_iff_append_eq.2 rfl
    rw [hraw, Line.ofRaw_crlf, dropMarker, hmarker, Option.getD_some]
  · have hmarker : ['\r'].isSuffixOf? s = none := by
      rw [Option.eq_none_iff_forall_ne_some]
      intro text htext
      rw [← List.isSuffixOf?_eq_some_iff_append_eq.1 htext] at hcr
      exact hcr (by simp)
    rw [Line.ofRaw_lf number hcr, dropMarker, hmarker, Option.getD_none]

/-- **The two ways of cutting a content** give the same texts. -/
theorem lines_eq (content : Text) : lines content = (Line.ofContent content).map (·.text) := by
  rw [Line.ofContent_eq_linesFrom]
  refine Line.content_induction (motive := fun content =>
    ∀ number, lines content = (Line.linesFrom number content).map (·.text)) ?_ ?_ content 1
  · intro s hs number
    rw [lines_of_not_mem hs]
    split
    · rename_i hempty
      rw [List.isEmpty_iff.1 hempty]
      rfl
    · rename_i hne
      rw [Line.linesFrom_of_not_mem number hs (by simpa using hne)]
      rfl
  · intro s t hs ih number
    rw [lines_append hs, Line.linesFrom_append number hs, List.map_cons, ← dropMarker_eq_text, ih]

end Text

end DocLint
