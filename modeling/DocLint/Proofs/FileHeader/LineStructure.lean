import DocLint.Proofs.FileHeader.Layout

/-!
# Header edits and the lines of the file

Making the edits of a header review keeps the file's lines: their number, their endings and every line without an edit
(`apply_lineStructure`). The edits come in the order of their lines, all of them inside the header, and the header of
the edited file has the same first and last line. There are edits exactly when the content changes.
-/

namespace DocLint
namespace HeaderReview

variable {content : Text} {above inside below : List Line}

/-- The edits are in the order of their lines. -/
theorem Layout.pairwise_edits (h : Layout content above inside below) (path : Path) :
    (ofContent path content).edits.Pairwise (·.line < ·.line) := by
  have hnum := (List.pairwise_append.1 (List.pairwise_append.1 h.pairwise_number).1).2.1
  rw [h.edits_eq, List.pairwise_filterMap]
  refine hnum.imp fun hlt d hd e he => ?_
  rw [(edit?_eq_some_iff.1 hd).2, (edit?_eq_some_iff.1 he).2]
  exact hlt

/-- The text of a line of the edited content is that of its edit, or the old one if it has none. -/
theorem Layout.text_apply (h : Layout content above inside below) (path : Path) {i : Nat} {old new : Line}
    (hold : (Line.ofContent content)[i]? = some old)
    (hnew : (Line.ofContent ((ofContent path content).apply content))[i]? = some new) :
    new.number = old.number ∧ new.ending = old.ending ∧
      (∀ edit ∈ (ofContent path content).edits, edit.line = old.number → new.text = edit.new) ∧
      ((∀ edit ∈ (ofContent path content).edits, edit.line ≠ old.number) → new.text = old.text) := by
  rw [h.ofContent_apply_eq_map, List.getElem?_map, hold] at hnew
  cases hnew
  refine ⟨rfl, rfl, fun edit hmem hline => ?_, fun hne => Edit.textOf_of_forall_ne hne⟩
  -- The edit is that of a line inside with the same number, which is the line itself.
  obtain ⟨line, hl, -, rfl⟩ := (h.mem_edits_iff path).1 hmem
  rw [← Line.eq_of_number_eq (h.mem_ofContent hl) (List.mem_of_getElem? hold) hline]
  exact h.textOf_inside path hl

/-- An edit changes the content. -/
theorem Layout.apply_ne (h : Layout content above inside below) (path : Path)
    (hne : (ofContent path content).edits ≠ []) : (ofContent path content).apply content ≠ content := by
  intro heq
  obtain ⟨edit, hmem⟩ := List.exists_mem_of_ne_nil _ hne
  obtain ⟨line, hl, hchange, -⟩ := (h.mem_edits_iff path).1 hmem
  have hlines := h.ofContent_apply path
  rw [heq, h.lines] at hlines
  have hinside := (List.append_inj (List.append_cancel_right hlines) rfl).2
  obtain ⟨i, hi⟩ := List.getElem?_of_mem hl
  have hi' : (inside.map (Line.renew path.headerName))[i]? = some (line.renew path.headerName) := by
    rw [List.getElem?_map, hi]
    rfl
  rw [← hinside, hi] at hi'
  exact hchange (congrArg Line.text (Option.some.inj hi').symm)

/-- **Without edits the content stays, and only then.** -/
theorem apply_eq_self_iff (path : Path) (content : Text) :
    (ofContent path content).apply content = content ↔ (ofContent path content).edits = [] := by
  refine ⟨fun heq => ?_, apply_of_edits_eq_nil⟩
  by_contra hne
  rcases exists_layout_or content with ⟨above, inside, below, h⟩ | hnone
  · exact h.apply_ne path hne heq
  · rw [ofContent_of_none path hnone] at hne
    exact hne rfl

/-- **Header edits keep the lines of the file.** The edits are in the order of their lines, inside the header; each
replaces the text of its line by another one without a line feed. The edited content has as many lines with the same
endings; a line has the text of its edit, or its own if it has none. The header has the same first and last line as
before, and the content changes exactly when there are edits. -/
theorem apply_lineStructure (path : Path) (content : Text) :
    let review := ofContent path content
    let old := Line.ofContent content
    let new := Line.ofContent (review.apply content)
    review.edits.Pairwise (·.line < ·.line) ∧
    (∀ edit ∈ review.edits,
      (∃ header, review.header = some header ∧ header.startLine ≤ edit.line ∧ edit.line ≤ header.endLine) ∧
      (∃ line ∈ old, line.number = edit.line ∧ line.text = edit.old) ∧ edit.new ≠ edit.old ∧ '\n' ∉ edit.new) ∧
    new.length = old.length ∧
    (∀ (i : Nat) (line line' : Line), old[i]? = some line → new[i]? = some line' →
      line'.number = line.number ∧ line'.ending = line.ending ∧
      (∀ edit ∈ review.edits, edit.line = line.number → line'.text = edit.new) ∧
      ((∀ edit ∈ review.edits, edit.line ≠ line.number) → line'.text = line.text)) ∧
    (DocComment.first? (new.map (·.text))).map (fun header => (header.startLine, header.endLine)) =
      review.header.map (fun header => (header.startLine, header.endLine)) ∧
    (review.edits ≠ [] ↔ review.apply content ≠ content) := by
  intro review old new
  rcases exists_layout_or content with ⟨above, inside, below, h⟩ | hnone
  · refine ⟨h.pairwise_edits path, fun edit hmem => ?_, ?_, fun i line line' => h.text_apply path, ?_,
      not_congr (apply_eq_self_iff path content).symm⟩
    · obtain ⟨line, hl, hne, rfl⟩ := (h.mem_edits_iff path).1 hmem
      have hmem' : line ∈ old := h.mem_ofContent hl
      have hbounds := h.number_bounds hl
      exact ⟨⟨_, h.header_eq path, hbounds.1, hbounds.2⟩, ⟨line, hmem', rfl, rfl⟩, hne,
        Renewal.lineFeed_not_mem_ofLine _ _ (Line.fits_of_mem hmem').lineFeed⟩
    · simp only [new, old, review, h.ofContent_apply_eq_map, List.length_map]
    · simp only [new, review, (h.apply path).first?, h.header_eq path, headerOf, Option.map_some, List.length_map]
  · have hreview : review = missing path := ofContent_of_none path hnone
    have hedits : review.edits = [] := by rw [hreview]; rfl
    have happly : review.apply content = content := apply_of_edits_eq_nil hedits
    have hnew : new = old := congrArg Line.ofContent happly
    refine ⟨by simp [hedits], by simp [hedits], by rw [hnew], fun i line line' hl hl' => ?_, ?_,
      by simp [hedits, happly]⟩
    · rw [hnew, hl] at hl'
      cases hl'
      exact ⟨rfl, rfl, by simp [hedits], fun _ => rfl⟩
    · rw [hnew, hnone, hreview]
      rfl

end HeaderReview
end DocLint
