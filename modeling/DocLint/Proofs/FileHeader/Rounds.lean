import Mathlib.Algebra.GroupWithZero.Nat
import Mathlib.Logic.Function.Iterate
import DocLint.Proofs.FileHeader.Layout

/-!
# Header checks in a row

A file that has several names is checked under one after the other, each time with the content that the check before has
left (`HeaderReview.rounds`). The colons in the lines of the header are what such rounds live on: each edit takes one at
least and none comes back (`HeaderReview.length_edits_add_colons_le`), while the header stays where it is
(`HeaderReview.place_normalized`). So there are no more edits in all rounds than colons at the start, and under one name
a content is reached that has no edits (`HeaderReview.rounds_settle`).
-/

namespace DocLint

namespace HeaderReview

/-! ## Several rounds -/

section Rounds

/-- The header of a content. -/
def headerIn (content : Text) : Option DocComment := DocComment.first? ((Line.ofContent content).map (·.text))

/-- The numbers of the first and the last line of the header of a content. -/
def place (content : Text) : Option (Nat × Nat) :=
  (headerIn content).map fun header => (header.startLine, header.endLine)

/-- The number of colons in the lines of the header of a content. -/
def colons (content : Text) : Nat := ((headerIn content).toList.flatMap (·.lines)).flatten.count ':'

/-- The content with its header checked for the file at the path, and edited. -/
def normalized (path : Path) (content : Text) : Text := (ofContent path content).apply content

/-- The reviews of a content for one path after the other, each time with the edits before made. -/
def rounds (content : Text) : List Path → List HeaderReview
  | [] => []
  | path :: rest => ofContent path content :: rounds (normalized path content) rest

end Rounds

/-! ## One round -/

section Round

variable {content : Text} {above inside below : List Line}

theorem Layout.colons_eq (h : Layout content above inside below) :
    colons content = (inside.map fun line => line.text.count ':').sum := by
  have hblank : Text.isBlank ':' = false := rfl
  simp only [colons, headerIn, h.first?, headerOf, Option.toList_some, List.flatMap_singleton, List.count_flatten,
    List.map_map]
  exact congrArg List.sum (List.map_congr_left fun line _ => Text.count_trim hblank line.text)

theorem Layout.place_eq (h : Layout content above inside below) :
    place content = some (above.length + 1, above.length + inside.length) := by
  rw [place, headerIn, h.first?]
  rfl

/-- The edit of a line, if it has one, takes a colon from it. -/
theorem length_edit?_add_count_le (fileName : Text) (line : Line) :
    (HeaderLine.ofLine fileName line).edit?.toList.length + (line.renew fileName).text.count ':' ≤
      line.text.count ':' := by
  rcases Renewal.ofLine_eq_or_count_lt fileName line.text with heq | hlt
  · simp [HeaderLine.edit?, HeaderLine.ofLine, Line.renew, heq]
  · have hone : (HeaderLine.ofLine fileName line).edit?.toList.length ≤ 1 := by
      cases (HeaderLine.ofLine fileName line).edit? <;> simp
    rw [Line.renew_text]
    omega

/-- The edits of some lines take a colon each from them. -/
theorem length_filterMap_edit?_add_le (fileName : Text) (lines : List Line) :
    (lines.filterMap fun line => (HeaderLine.ofLine fileName line).edit?).length +
        (lines.map fun line => (line.renew fileName).text.count ':').sum ≤
      (lines.map fun line => line.text.count ':').sum := by
  induction lines with
  | nil => simp
  | cons line rest ih =>
    have hline := length_edit?_add_count_le fileName line
    have hedits : ((line :: rest).filterMap fun line => (HeaderLine.ofLine fileName line).edit?).length =
        (HeaderLine.ofLine fileName line).edit?.toList.length +
          (rest.filterMap fun line => (HeaderLine.ofLine fileName line).edit?).length := by
      rw [List.filterMap_cons]
      cases (HeaderLine.ofLine fileName line).edit? <;> simp [Nat.add_comm]
    rw [hedits, List.map_cons, List.map_cons, List.sum_cons, List.sum_cons]
    omega

/-- **One round** takes a colon from the header for every edit. -/
theorem length_edits_add_colons_le (path : Path) (content : Text) :
    (ofContent path content).edits.length + colons (normalized path content) ≤ colons content := by
  rcases exists_layout_or content with ⟨above, inside, below, h⟩ | hnone
  · rw [h.edits_eq, normalized, (h.apply path).colons_eq, h.colons_eq, List.map_map]
    exact length_filterMap_edit?_add_le path.headerName inside
  · have hedits : (ofContent path content).edits = [] := by
      rw [ofContent_of_none path hnone]
      rfl
    rw [normalized, apply_of_edits_eq_nil hedits, hedits, List.length_nil, Nat.zero_add]

/-- An edit takes a colon from its line. -/
theorem count_lt_of_mem_edits {path : Path} {edit : Edit} (hedit : edit ∈ (ofContent path content).edits) :
    edit.new.count ':' < edit.old.count ':' := by
  rcases exists_layout_or content with ⟨above, inside, below, h⟩ | hnone
  · obtain ⟨line, -, hne, rfl⟩ := (h.mem_edits_iff path).1 hedit
    exact (Renewal.ofLine_eq_or_count_lt path.headerName line.text).resolve_left hne
  · rw [ofContent_of_none path hnone] at hedit
    cases hedit

/-- The header stays where it is. -/
theorem place_normalized (path : Path) (content : Text) : place (normalized path content) = place content := by
  rcases exists_layout_or content with ⟨above, inside, below, h⟩ | hnone
  · rw [normalized, (h.apply path).place_eq, h.place_eq, List.length_map]
  · rw [normalized, apply_of_edits_eq_nil]
    rw [ofContent_of_none path hnone]
    rfl

/-- A review has found the header of the content. -/
theorem header_ofContent (path : Path) (content : Text) : (ofContent path content).header = headerIn content := by
  rcases exists_layout_or content with ⟨above, inside, below, h⟩ | hnone
  · rw [h.header_eq path, headerIn, h.first?]
  · rw [ofContent_of_none path hnone, headerIn, hnone]
    rfl

end Round

/-! ## All rounds -/

/-- All edits of some rounds together are at most as many as the header has colons before them. -/
theorem sum_length_edits_le (paths : List Path) (content : Text) :
    ((rounds content paths).map (·.edits.length)).sum ≤ colons content := by
  induction paths generalizing content with
  | nil => exact Nat.zero_le _
  | cons path rest ih =>
    have hround := length_edits_add_colons_le path content
    have hrest := ih (normalized path content)
    rw [rounds, List.map_cons, List.sum_cons]
    omega

/-- In every round the header is at its place, and every edit takes a colon. -/
theorem of_mem_rounds {paths : List Path} {content : Text} {review : HeaderReview} (h : review ∈ rounds content paths) :
    (∀ edit ∈ review.edits, edit.new.count ':' < edit.old.count ':') ∧
      review.header.map (fun header => (header.startLine, header.endLine)) = place content := by
  induction paths generalizing content with
  | nil => cases h
  | cons path rest ih =>
    rcases List.mem_cons.1 h with rfl | h
    · exact ⟨fun edit hedit => count_lt_of_mem_edits hedit, congrArg _ (header_ofContent path content)⟩
    · rw [← place_normalized path content]
      exact ih h

/-- A content without edits stays as it is in every further round for the same path. -/
theorem iterate_of_edits_eq_nil {path : Path} {content : Text} (h : (ofContent path content).edits = []) (n : Nat) :
    (normalized path)^[n] content = content :=
  have hfixed : normalized path content = content := apply_of_edits_eq_nil h
  Function.iterate_fixed hfixed n

/-- Rounds for one path end in a content without edits, after no more rounds than the header has colons. -/
theorem exists_idle_round (path : Path) {limit : Nat} {content : Text} (h : colons content ≤ limit) :
    ∃ n ≤ limit, (ofContent path ((normalized path)^[n] content)).edits = [] := by
  induction limit generalizing content with
  | zero =>
    have hround := length_edits_add_colons_le path content
    exact ⟨0, Nat.le_refl 0, List.length_eq_zero_iff.1 (by rw [Function.iterate_zero_apply]; omega)⟩
  | succ limit ih =>
    by_cases hedits : (ofContent path content).edits = []
    · exact ⟨0, Nat.zero_le _, hedits⟩
    · have hpos := List.length_pos_iff.2 hedits
      have hround := length_edits_add_colons_le path content
      obtain ⟨n, hn, hidle⟩ := ih (show colons (normalized path content) ≤ limit by omega)
      exact ⟨n + 1, Nat.succ_le_succ hn, by rwa [Function.iterate_succ_apply]⟩

/-- **Header checks settle.** Whatever the paths of a row of rounds are, every edit has fewer colons than the line it
replaces, the header keeps its first and last line, and all edits together are at most as many as the lines of the
header have colons before the first round. So for one path a content is reached, after at most that many rounds, that
has no edits and stays as it is. -/
theorem rounds_settle (content : Text) :
    (∀ paths : List Path,
      (∀ review ∈ rounds content paths,
        (∀ edit ∈ review.edits, edit.new.count ':' < edit.old.count ':') ∧
        review.header.map (fun header => (header.startLine, header.endLine)) = place content) ∧
      ((rounds content paths).map (·.edits.length)).sum ≤ colons content) ∧
    ∀ path : Path, ∃ n ≤ colons content, ∀ m ≥ n,
      (ofContent path ((normalized path)^[m] content)).edits = [] ∧
        (normalized path)^[m] content = (normalized path)^[n] content := by
  refine ⟨fun paths => ⟨fun review hreview => of_mem_rounds hreview, sum_length_edits_le paths content⟩, fun path => ?_⟩
  obtain ⟨n, hn, hidle⟩ := exists_idle_round path (Nat.le_refl (colons content))
  refine ⟨n, hn, fun m hm => ?_⟩
  have hstay : (normalized path)^[m] content = (normalized path)^[n] content := by
    rw [← Nat.sub_add_cancel hm, Function.iterate_add_apply, iterate_of_edits_eq_nil hidle]
  exact ⟨hstay ▸ hidle, hstay⟩

end HeaderReview
end DocLint
