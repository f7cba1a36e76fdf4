import DocLint.Proofs.Edit
import DocLint.Proofs.FileHeader.Retagging

/-!
# The lines of a file around and inside its header

The lines of a content with a header are those above the header, those inside it and those below
(`HeaderReview.Layout`). In these terms the review has one field each for its header, its edits and its findings
(`header_eq`, `edits_eq`, `findings_eq`), and applying it renews the lines inside and nothing else (`Layout.apply`).
-/

namespace DocLint

/-- The name that a header of the file at the path has to have. -/
def Path.headerName (path : Path) : Text := path.fileName?.getD []

/-- The line with the tags of its text renewed. -/
def Line.renew (fileName : Text) (line : Line) : Line :=
  { line with text := (Renewal.ofLine fileName line.text).text }

theorem Line.renew_text (fileName : Text) (line : Line) :
    (line.renew fileName).text = (Renewal.ofLine fileName line.text).text := rfl

/-- A text that fits its line still does when its tags are renewed. -/
theorem Line.Fits.renew {line : Line} {text : Text} (h : line.Fits text) (fileName : Text) :
    line.Fits (Renewal.ofLine fileName text).text where
  lineFeed := Renewal.lineFeed_not_mem_ofLine fileName text h.lineFeed
  carriageReturn hlf hcr := h.carriageReturn hlf (Renewal.getLast?_ofLine fileName text rfl (by decide) hcr)
  unended hend hnil := h.unended hend ((Renewal.ofLine_eq_nil_iff fileName text).1 hnil)

/-- The line of a header that a line of the file is. -/
def HeaderLine.ofLine (fileName : Text) (line : Line) : HeaderLine :=
  ⟨line.number, line.text, Renewal.ofLine fileName line.text⟩

namespace HeaderReview

/-- The lines of a content above its header, inside it and below. -/
structure Layout (content : Text) (above inside below : List Line) : Prop where
  lines : Line.ofContent content = above ++ inside ++ below
  first : DocComment.IsFirst (above.map (·.text)) (inside.map (·.text))

variable {content : Text} {above inside below : List Line}

/-! ## The review in terms of the lines -/

section Review

/-- The header that lies between the lines. -/
def headerOf (above inside : List Line) : DocComment :=
  ⟨above.length + 1, above.length + inside.length, inside.map fun line => Text.trim line.text⟩

theorem Layout.first? (h : Layout content above inside below) :
    DocComment.first? ((Line.ofContent content).map (·.text)) = some (headerOf above inside) :=
  DocComment.first?_eq_some_iff.2 ⟨_, _, below.map (·.text), by simp [h.lines], h.first, by simp [headerOf]⟩

theorem Layout.mem_ofContent (h : Layout content above inside below) {line : Line} (hl : line ∈ inside) :
    line ∈ Line.ofContent content := by
  rw [h.lines]
  exact List.mem_append_left _ (List.mem_append_right _ hl)

/-- A content has a header between its lines, or none at all. -/
theorem exists_layout_or (content : Text) : (∃ above inside below, Layout content above inside below) ∨
    DocComment.first? ((Line.ofContent content).map (·.text)) = none := by
  cases h : DocComment.first? ((Line.ofContent content).map (·.text)) with
  | none => exact .inr rfl
  | some header =>
    obtain ⟨pre, block, post, heq, hfirst, -⟩ := DocComment.first?_eq_some_iff.1 h
    obtain ⟨front, below, hlines, hfront, -⟩ := List.map_eq_append_iff.1 heq
    obtain ⟨above, inside, rfl, rfl, rfl⟩ := List.map_eq_append_iff.1 hfront
    exact .inl ⟨above, inside, below, hlines, hfirst⟩

theorem ofContent_of_none (path : Path)
    (h : DocComment.first? ((Line.ofContent content).map (·.text)) = none) : ofContent path content = missing path := by
  simp only [ofContent, h]

/-- The numbers of the lines increase. -/
theorem Layout.pairwise_number (h : Layout content above inside below) :
    (above ++ inside ++ below).Pairwise (·.number < ·.number) :=
  h.lines ▸ (Line.ofContent_eq_iff.1 rfl).1.pairwise_number

/-- The three parts are numbered one after the other. -/
theorem Layout.map_number (h : Layout content above inside below) :
    above.map (·.number) = List.range' 1 above.length ∧
      inside.map (·.number) = List.range' (above.length + 1) inside.length ∧
      below.map (·.number) = List.range' (above.length + inside.length + 1) below.length := by
  have hnum := (Line.ofContent_eq_iff.1 h.lines).1.map_number
  simp only [List.map_append, List.length_append] at hnum
  rw [← List.range'_append_1, ← List.range'_append_1] at hnum
  obtain ⟨hfront, hbelow⟩ := List.append_inj hnum (by simp)
  obtain ⟨habove, hinside⟩ := List.append_inj hfront (by simp)
  rw [Nat.add_comm 1] at hinside hbelow
  exact ⟨habove, hinside, hbelow⟩

theorem Layout.number_bounds (h : Layout content above inside below) {line : Line} (hl : line ∈ inside) :
    above.length + 1 ≤ line.number ∧ line.number ≤ above.length + inside.length := by
  have hmem : line.number ∈ inside.map (·.number) := List.mem_map_of_mem hl
  rw [h.map_number.2.1, List.mem_range'_1] at hmem
  omega

/-- The lines of a content that the header of its review covers. -/
def headerLines (review : HeaderReview) (content : Text) : List Line :=
  (Line.ofContent content).filter fun line =>
    review.header.any fun header => header.startLine ≤ line.number ∧ line.number ≤ header.endLine

theorem Layout.ofHeader_eq (h : Layout content above inside below) (fileName : Text) :
    HeaderLine.ofHeader fileName (headerOf above inside) ((Line.ofContent content).map (·.text)) =
      inside.map (HeaderLine.ofLine fileName) := by
  have hcut : ((Line.ofContent content).map (·.text)).drop above.length =
      inside.map (·.text) ++ below.map (·.text) := by
    rw [h.lines, List.append_assoc, List.map_append, List.map_append, List.drop_left' (by simp)]
  have hsize : above.length + inside.length + 1 - (above.length + 1) = inside.length := by omega
  rw [HeaderLine.ofHeader, headerOf, Nat.add_sub_cancel, hcut, hsize, List.take_left' (by simp)]
  refine List.ext_getElem? fun i => ?_
  rw [List.getElem?_mapIdx, List.getElem?_map, List.getElem?_map]
  cases hi : inside[i]? with
  | none => rfl
  | some line =>
    have hnum : (inside.map (·.number))[i]? = some line.number := by rw [List.getElem?_map, hi]; rfl
    rw [h.map_number.2.1, List.getElem?_range' (List.getElem?_eq_some_iff.1 hi).1] at hnum
    simp only [Option.map_some, HeaderLine.ofLine, Option.some.injEq, HeaderLine.mk.injEq, and_true]
    simpa using hnum

/-- The renewed lines of the header in one. -/
def renewedText (fileName : Text) (inside : List Line) : Text :=
  Text.spaced (inside.map fun line => (line.renew fileName).text)

/-- The findings about tags that the renewed header, which begins at a line, should have. -/
def tagFindings (path : Path) (line : Nat) (header : Text) : List Finding :=
  (if namesFile path.headerName header then [] else [Finding.ofProblem path line (.noFileTag path.headerName)]) ++
    (if namesAuthor header then [] else [Finding.ofProblem path line .noAuthorTag])

theorem Layout.review_eq (h : Layout content above inside below) (path : Path) :
    ofContent path content = ofHeader path path.headerName (headerOf above inside)
      ((Line.ofContent content).map (·.text)) := by
  simp only [ofContent, h.first?, Path.headerName]

theorem Layout.header_eq (h : Layout content above inside below) (path : Path) :
    (ofContent path content).header = some (headerOf above inside) := by
  rw [h.review_eq]
  rfl

/-- The header covers the lines inside. -/
theorem Layout.headerLines_eq (h : Layout content above inside below) (path : Path) :
    (ofContent path content).headerLines content = inside := by
  obtain ⟨habove, -, hbelow⟩ := h.map_number
  have hin : ∀ line ∈ inside, above.length + 1 ≤ line.number ∧ line.number ≤ above.length + inside.length :=
    fun line hl => h.number_bounds hl
  have hup : ∀ line ∈ above, ¬ (above.length + 1 ≤ line.number ∧ line.number ≤ above.length + inside.length) := by
    intro line hl
    have hmem : line.number ∈ above.map (·.number) := List.mem_map_of_mem hl
    rw [habove, List.mem_range'_1] at hmem
    omega
  have hdown : ∀ line ∈ below, ¬ (above.length + 1 ≤ line.number ∧ line.number ≤ above.length + inside.length) := by
    intro line hl
    have hmem : line.number ∈ below.map (·.number) := List.mem_map_of_mem hl
    rw [hbelow, List.mem_range'_1] at hmem
    omega
  simp only [headerLines, h.header_eq path, headerOf, h.lines, List.filter_append, Option.any_some]
  rw [List.filter_eq_nil_iff.2 (by simpa using hup), List.filter_eq_self.2 (by simpa using hin),
    List.filter_eq_nil_iff.2 (by simpa using hdown), List.nil_append, List.append_nil]

theorem Layout.edits_eq (h : Layout content above inside below) (path : Path) :
    (ofContent path content).edits = inside.filterMap fun line => (HeaderLine.ofLine path.headerName line).edit? := by
  rw [h.review_eq, ofHeader, h.ofHeader_eq, List.filterMap_map]
  rfl

theorem Layout.findings_eq (h : Layout content above inside below) (path : Path) :
    (ofContent path content).findings =
      (inside.filterMap fun line => (HeaderLine.ofLine path.headerName line).finding? path path.headerName) ++
        tagFindings path (above.length + 1) (renewedText path.headerName inside) := by
  simp only [h.review_eq, ofHeader, h.ofHeader_eq, List.filterMap_map, List.map_map, List.append_assoc]
  rfl

end Review

/-! ## The edited content -/

section Edits

variable {fileName : Text}

theorem edit?_eq_some_iff {line : Line} {edit : Edit} : (HeaderLine.ofLine fileName line).edit? = some edit ↔
    (line.renew fileName).text ≠ line.text ∧ edit = ⟨line.number, line.text, (line.renew fileName).text⟩ := by
  simp only [HeaderLine.edit?, HeaderLine.ofLine, Line.renew]
  by_cases h : (Renewal.ofLine fileName line.text).text = line.text
  · simp [h]
  · simp [h, eq_comm]

theorem Layout.mem_edits_iff (h : Layout content above inside below) (path : Path) {edit : Edit} :
    edit ∈ (ofContent path content).edits ↔ ∃ line ∈ inside, (line.renew path.headerName).text ≠ line.text ∧
      edit = ⟨line.number, line.text, (line.renew path.headerName).text⟩ := by
  rw [h.edits_eq, List.mem_filterMap]
  exact exists_congr fun line => and_congr_right fun _ => edit?_eq_some_iff

/-- The edits of lines give each of these lines its renewed text. -/
theorem textOf_of_mem {lines : List Line} (hnum : lines.Pairwise (·.number < ·.number)) {line : Line}
    (hl : line ∈ lines) :
    Edit.textOf (lines.filterMap fun l => (HeaderLine.ofLine fileName l).edit?) line = (line.renew fileName).text := by
  induction lines with
  | nil => cases hl
  | cons first rest ih =>
    obtain ⟨hfirst, hrest⟩ := List.pairwise_cons.1 hnum
    rw [List.filterMap_cons]
    rcases List.mem_cons.1 hl with rfl | hl
    · cases hedit : (HeaderLine.ofLine fileName line).edit? with
      | none =>
        have hsame : (line.renew fileName).text = line.text := by
          by_contra hne
          rw [edit?_eq_some_iff.2 ⟨hne, rfl⟩] at hedit
          cases hedit
        simp only [hsame]
        refine Edit.textOf_of_forall_ne fun edit hmem => ?_
        obtain ⟨l, hl', hedit'⟩ := List.mem_filterMap.1 hmem
        rw [(edit?_eq_some_iff.1 hedit').2]
        exact (Nat.ne_of_lt (hfirst l hl')).symm
      | some edit => simp [Edit.textOf, (edit?_eq_some_iff.1 hedit).2]
    · have hlt := hfirst line hl
      cases hedit : (HeaderLine.ofLine fileName first).edit? with
      | none => exact ih hrest hl
      | some edit =>
        have hne : edit.line ≠ line.number := by
          rw [(edit?_eq_some_iff.1 hedit).2]
          exact Nat.ne_of_lt hlt
        rw [← ih hrest hl]
        simp only [Edit.textOf, List.find?_cons, hne, decide_false]

theorem Layout.textOf_outside (h : Layout content above inside below) (path : Path) {line : Line}
    (hl : line ∈ above ∨ line ∈ below) : Edit.textOf (ofContent path content).edits line = line.text := by
  refine Edit.textOf_of_forall_ne fun edit hmem => ?_
  obtain ⟨l, hl', -, rfl⟩ := (h.mem_edits_iff path).1 hmem
  have hnum := h.pairwise_number
  rw [List.pairwise_append, List.pairwise_append] at hnum
  obtain ⟨⟨-, -, habove⟩, -, hbelow⟩ := hnum
  rcases hl with hl | hl
  · exact (Nat.ne_of_lt (habove line hl l hl')).symm
  · exact Nat.ne_of_lt (hbelow l (List.mem_append_right _ hl') line hl)

theorem Layout.textOf_inside (h : Layout content above inside below) (path : Path) {line : Line}
    (hl : line ∈ inside) : Edit.textOf (ofContent path content).edits line = (line.renew path.headerName).text := by
  have hnum := (List.pairwise_append.1 (List.pairwise_append.1 h.pairwise_number).1).2.1
  rw [h.edits_eq]
  exact textOf_of_mem hnum hl

/-- The lines of the edited content have the texts that the edits give them. -/
theorem Layout.ofContent_apply_eq_map (h : Layout content above inside below) (path : Path) :
    Line.ofContent ((ofContent path content).apply content) =
      (Line.ofContent content).map fun line =>
        { line with text := Edit.textOf (ofContent path content).edits line } := by
  refine Edit.ofContent_applyAll fun line hl => ?_
  have hfits := Line.fits_of_mem hl
  rw [h.lines, List.mem_append, List.mem_append, or_right_comm] at hl
  rcases hl with hl | hl
  · rw [h.textOf_outside path hl]
    exact hfits
  · rw [h.textOf_inside path hl]
    exact hfits.renew path.headerName

/-- The lines of the edited content: those inside the header are renewed. -/
theorem Layout.ofContent_apply (h : Layout content above inside below) (path : Path) :
    Line.ofContent ((ofContent path content).apply content) =
      above ++ inside.map (Line.renew path.headerName) ++ below := by
  have hout : ∀ lines : List Line, (∀ line ∈ lines, line ∈ above ∨ line ∈ below) →
      lines.map (fun line => { line with text := Edit.textOf (ofContent path content).edits line }) = lines := by
    intro lines hlines
    refine (List.map_congr_left fun line hl => ?_).trans (List.map_id lines)
    rw [h.textOf_outside path (hlines line hl)]
    rfl
  have hin : inside.map (fun line => { line with text := Edit.textOf (ofContent path content).edits line }) =
      inside.map (Line.renew path.headerName) :=
    List.map_congr_left fun line hl => by rw [h.textOf_inside path hl]; rfl
  rw [h.ofContent_apply_eq_map, h.lines, List.map_append, List.map_append, hout above fun _ => .inl, hin,
    hout below fun _ => .inr]

/-- The edited content has its header at the same lines. -/
theorem Layout.apply (h : Layout content above inside below) (path : Path) :
    Layout ((ofContent path content).apply content) above (inside.map (Line.renew path.headerName)) below := by
  refine ⟨h.ofContent_apply path, ?_⟩
  have hfirst := h.first.map (Renewal.opens_ofLine path.headerName) (Renewal.closes_ofLine path.headerName)
  rw [List.map_map] at hfirst ⊢
  exact hfirst

/-- Without edits nothing changes. -/
theorem apply_of_edits_eq_nil {path : Path} (h : (ofContent path content).edits = []) :
    (ofContent path content).apply content = content := by
  refine Edit.applyAll_eq_self fun line _ => ?_
  rw [h]
  exact List.forall_mem_nil _

end Edits
end HeaderReview
end DocLint
