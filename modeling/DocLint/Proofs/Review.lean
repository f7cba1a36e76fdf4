import DocLint.Review
import DocLint.Proofs.FileHeader.Layout
import DocLint.Proofs.Method.Wrapping

/-!
# What a review depends on

The scans trim every line that they read, so that they find the same in lines that are trimmed already
(`DocComment.first?_map_trim`, `Method.ofLines_map_trim`, `IncludeGuard.isGuarded_map_trim`). A review reads the texts
of the lines and no line endings (`ContentReview.ofContent_congr`), and header edits leave the endings alone
(`HeaderReview.map_ending_apply`). Hence neither line endings nor indentation change what is found
(`ContentReview.same_up_to_endings_and_blanks`).
-/

namespace DocLint

open Text (trim)

/-! ## Trimmed lines -/

section Trimmed

namespace DocComment

theorem untilClose?_map_trim : ∀ lines : List Text, untilClose? (lines.map trim) = untilClose? lines
  | [] => rfl
  | line :: rest => by
    rw [List.map_cons, untilClose?, untilClose?, closes_trim, Text.trim_trim, untilClose?_map_trim rest]

theorem firstFrom?_map_trim : ∀ (number : Nat) (lines : List Text),
    firstFrom? number (lines.map trim) = firstFrom? number lines
  | _, [] => rfl
  | number, line :: rest => by
    have hclose := untilClose?_map_trim (line :: rest)
    rw [List.map_cons] at hclose ⊢
    rw [firstFrom?, firstFrom?, opens_trim, hclose, firstFrom?_map_trim (number + 1) rest]

/-- The first comment of a file does not depend on the blanks around its lines. -/
theorem first?_map_trim (lines : List Text) : first? (lines.map trim) = first? lines := firstFrom?_map_trim 1 lines

end DocComment

/-- The include guard of a file does not depend on the blanks around its lines. -/
theorem IncludeGuard.isGuarded_map_trim (lines : List Text) : isGuarded (lines.map trim) = isGuarded lines := by
  have htrim : (lines.map trim).map trim = lines.map trim := by
    rw [List.map_map]
    exact List.map_congr_left fun line _ => Text.trim_trim line
  rw [isGuarded, isGuarded, htrim]

end Trimmed

/-! ## Line endings -/

section Endings

namespace HeaderReview

variable {content content' : Text}

theorem ofContent_congr (path : Path)
    (h : (Line.ofContent content).map (·.text) = (Line.ofContent content').map (·.text)) :
    ofContent path content = ofContent path content' := by
  simp only [ofContent, h]

/-- The lines of the edited content have the texts that the edits give them. -/
theorem ofContent_apply (path : Path) (content : Text) : Line.ofContent ((ofContent path content).apply content) =
    (Line.ofContent content).map fun line => { line with text := Edit.textOf (ofContent path content).edits line } := by
  rcases exists_layout_or content with ⟨above, inside, below, h⟩ | hnone
  · exact h.ofContent_apply_eq_map path
  · have hedits : (ofContent path content).edits = [] := by
      rw [ofContent_of_none path hnone]
      rfl
    rw [apply_of_edits_eq_nil hedits, hedits]
    exact (List.map_id _).symm

/-- Making the edits of a review leaves the line endings alone. -/
theorem map_ending_apply (path : Path) (content : Text) :
    (Line.ofContent ((ofContent path content).apply content)).map (·.ending) =
      (Line.ofContent content).map (·.ending) := by
  rw [ofContent_apply, List.map_map]
  rfl

/-- Which texts the lines have after the edits depends on the texts before alone. -/
theorem map_text_apply_congr (path : Path)
    (h : (Line.ofContent content).map (·.text) = (Line.ofContent content').map (·.text)) :
    (Line.ofContent ((ofContent path content).apply content)).map (·.text) =
      (Line.ofContent ((ofContent path content').apply content')).map (·.text) := by
  have hlength : (Line.ofContent content).length = (Line.ofContent content').length := by
    simpa using congrArg List.length h
  -- The numbers of the lines are the same as well, and an edit is found by them.
  have hlines : (Line.ofContent content).map (fun line => (line.number, line.text)) =
      (Line.ofContent content').map fun line => (line.number, line.text) := by
    rw [← List.zip_map', ← List.zip_map', h, (Line.ofContent_eq_iff.1 rfl).1.map_number,
      (Line.ofContent_eq_iff.1 rfl).1.map_number, hlength]
  have htexts := congrArg (List.map fun line : Nat × Text =>
    Edit.textOf (ofContent path content').edits ⟨line.1, line.2, []⟩) hlines
  rw [List.map_map, List.map_map] at htexts
  rw [ofContent_apply, ofContent_apply, ofContent_congr path h, List.map_map, List.map_map]
  exact htexts

end HeaderReview

/-- A review of a content depends on the texts of its lines alone. -/
theorem ContentReview.ofContent_congr (path : Path) (role : FileRole) (options : LintOptions) {content content' : Text}
    (h : (Line.ofContent content).map (·.text) = (Line.ofContent content').map (·.text)) :
    ofContent path role options content = ofContent path role options content' := by
  have hlines : content.lines = content'.lines := by rw [Text.lines_eq, Text.lines_eq, h]
  rw [ofContent, ofContent, HeaderReview.ofContent_congr path h, hlines]

end Endings

/-! ## Both -/

namespace ContentReview

/-- **Neither line endings nor indentation change what is found.** Two contents with the same texts of lines get the same
review, and its header edits give the lines of both the same texts, while each content keeps its own line endings. Two
lists of lines that are the same when they are trimmed have the same methods, the same first comment and the same
findings on include guards. -/
theorem same_up_to_endings_and_blanks (path : Path) :
    (∀ (role : FileRole) (options : LintOptions) (content content' : Text),
      (Line.ofContent content).map (·.text) = (Line.ofContent content').map (·.text) →
      let review := ofContent path role options content
      let new := Line.ofContent (review.header.apply content)
      let new' := Line.ofContent (review.header.apply content')
      review = ofContent path role options content' ∧ new.map (·.text) = new'.map (·.text) ∧
        new.map (·.ending) = (Line.ofContent content).map (·.ending) ∧
        new'.map (·.ending) = (Line.ofContent content').map (·.ending)) ∧
    ∀ lines lines' : List Text, lines.map trim = lines'.map trim →
      Method.ofLines lines = Method.ofLines lines' ∧ DocComment.first? lines = DocComment.first? lines' ∧
        IncludeGuard.findings path lines = IncludeGuard.findings path lines' := by
  constructor
  · intro role options content content' h review new new'
    have hheader : review.header = HeaderReview.ofContent path content := rfl
    have hheader' : review.header = HeaderReview.ofContent path content' := HeaderReview.ofContent_congr path h
    refine ⟨ofContent_congr path role options h, ?_, ?_, ?_⟩
    · simp only [new, new', hheader]
      rw [HeaderReview.map_text_apply_congr path h, HeaderReview.ofContent_congr path h]
    · simp only [new, hheader, HeaderReview.map_ending_apply]
    · simp only [new', hheader', HeaderReview.map_ending_apply]
  · intro lines lines' h
    refine ⟨?_, ?_, ?_⟩
    · rw [← Method.ofLines_map_trim, h, Method.ofLines_map_trim]
    · rw [← DocComment.first?_map_trim, h, DocComment.first?_map_trim]
    · rw [IncludeGuard.findings, IncludeGuard.findings, ← IncludeGuard.isGuarded_map_trim, h,
        IncludeGuard.isGuarded_map_trim]

/-- A file of two header lines in both ways of ending lines, and a declaration with a comment in two ways of indenting
them. -/
theorem same_up_to_endings_and_blanks_crlf :
    let path : Path := ⟨"a.hpp".toList⟩
    let dos := "/** File: a.hpp\r\n * Author: A */\r\n#pragma once\r\n".toList
    let unix := "/** File: a.hpp\n * Author: A */\n#pragma once".toList
    let flat := ["/** F. */".toList, "void f(int x,".toList, "int y);".toList]
    let indented := ["  /** F. */".toList, "  void f(int x,\r".toList, "\t     int y); ".toList]
    (Line.ofContent dos).map (·.text) = (Line.ofContent unix).map (·.text) ∧
      (HeaderReview.ofContent path dos).edits.length = 2 ∧
      ofContent path .header {} dos = ofContent path .header {} unix ∧
      flat.map trim = indented.map trim ∧ (Method.ofLines flat).length = 1 ∧
      Method.ofLines flat = Method.ofLines indented := by
  intro path dos unix flat indented
  have htexts : (Line.ofContent dos).map (·.text) = (Line.ofContent unix).map (·.text) := by decide
  have htrim : flat.map trim = indented.map trim := by decide
  obtain ⟨hcontents, hlines⟩ := same_up_to_endings_and_blanks path
  exact ⟨htexts, by decide, (hcontents .header {} dos unix htexts).1, htrim, by decide, (hlines flat indented htrim).1⟩

end ContentReview
end DocLint
