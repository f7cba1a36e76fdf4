import DocLint.Proofs.Method.Pairing
import DocLint.Proofs.FileHeader.LineStructure
import DocLint.Review

/-!
# The lines of findings

The findings about a method point at one line, its anchor: that where its comment begins or, if it has none, its own
first line. Methods do not overlap, so their anchors increase (`Method.InOrder.pairwise_anchor`), and the findings of a
file come in the order of their lines. Findings about the header point at the lines of the header. All lines are lines
of the file, but for the first line of an empty one (`ContentReview.findings_inPlace`).
-/

namespace DocLint

/-! ## Findings about methods -/

namespace Method

/-- The line that the findings about a method point at. -/
def anchor (m : Method) : Nat :=
  match m.comment with
  | some comment => comment.startLine
  | none => m.declaration.startLine

theorem anchor_of_some {m : Method} {comment : DocComment} (h : m.comment = some comment) :
    m.anchor = comment.startLine := by
  rw [anchor, h]

theorem anchor_of_none {m : Method} (h : m.comment = none) : m.anchor = m.declaration.startLine := by
  rw [anchor, h]

/-- The anchor lies below the floor, and above the declaration or at its first line. -/
theorem Below.anchor_bounds {floor : Nat} {m : Method} (h : m.Below floor) :
    floor < m.anchor ∧ m.anchor ≤ m.declaration.startLine := by
  cases hcomment : m.comment with
  | none =>
    rw [anchor_of_none hcomment]
    exact ⟨h.declaration, Nat.le_refl _⟩
  | some comment =>
    have hbetween := h.comment comment hcomment
    rw [anchor_of_some hcomment]
    exact ⟨hbetween.above, Nat.le_of_lt (Nat.lt_of_le_of_lt hbetween.ordered hbetween.below)⟩

theorem InOrder.anchor_bounds {last floor : Nat} {methods : List Method} (h : InOrder last floor methods) {m : Method}
    (hm : m ∈ methods) : floor < m.anchor ∧ m.anchor ≤ last := by
  obtain ⟨hbelow, hlast⟩ := h.mem hm
  have hordered := hbelow.ordered
  obtain ⟨hfloor, hstart⟩ := hbelow.anchor_bounds
  exact ⟨hfloor, by omega⟩

/-- The anchors of the methods of a file increase. -/
theorem InOrder.pairwise_anchor {last floor : Nat} {methods : List Method} (h : InOrder last floor methods) :
    methods.Pairwise (·.anchor < ·.anchor) := by
  refine h.pairwise.imp_of_mem fun ha _ hnext => ?_
  have hbelow := (h.mem ha).1
  have hordered := hbelow.ordered
  have hstart := hbelow.anchor_bounds.2
  have habove := hnext.anchor_bounds.1
  omega

/-- The line where the comment of a method begins has the mark for it. -/
theorem opens_of_comment {lines : List Text} {m : Method} (hm : m ∈ ofLines lines) {comment : DocComment}
    (h : m.comment = some comment) : ∃ line ∈ lineAt? lines comment.startLine, DocComment.opens line = true := by
  obtain ⟨before, after, heq⟩ := List.append_of_mem hm
  exact ((waits_of_ofLines_eq heq).1 comment h).opening

end Method

namespace Compliance

variable {path : Path} {lines : List Text}

/-- The findings of a method point at its anchor. -/
theorem line_of_mem_methodFindings {m : Method} {f : Finding} (h : f ∈ methodFindings path m) :
    f.path = path ∧ f.line = m.anchor := by
  cases hcomment : m.comment with
  | none =>
    simp only [methodFindings, hcomment, List.mem_singleton] at h
    rw [h, Method.anchor_of_none hcomment]
    exact ⟨rfl, rfl⟩
  | some comment =>
    rw [Method.anchor_of_some hcomment]
    simp only [methodFindings, hcomment, List.mem_append] at h
    rcases h with h | h
    · obtain ⟨p, -, rfl⟩ := List.mem_map.1 h
      exact ⟨rfl, rfl⟩
    · unfold returnFindings at h
      split at h
      · rw [List.mem_singleton.1 h]
        exact ⟨rfl, rfl⟩
      · cases h

theorem exists_method_of_mem_findings {methods : List Method} {f : Finding} (h : f ∈ findings path methods) :
    ∃ m ∈ methods, f.path = path ∧ f.line = m.anchor := by
  obtain ⟨m, hm, hf⟩ := List.mem_flatMap.1 h
  exact ⟨m, hm, line_of_mem_methodFindings hf⟩

/-- The findings about the methods of a file are in the order of their lines. -/
theorem pairwise_line_findings (path : Path) (lines : List Text) :
    (findings path (Method.ofLines lines)).Pairwise (·.line ≤ ·.line) := by
  have hanchor := (Method.inOrder_ofLines lines).pairwise_anchor
  refine List.pairwise_flatMap.2 ⟨fun m _ => ?_, hanchor.imp fun hlt f hf g hg => ?_⟩
  · refine List.pairwise_of_forall_mem_list fun f hf g hg => ?_
    rw [(line_of_mem_methodFindings hf).2, (line_of_mem_methodFindings hg).2]
  · rw [(line_of_mem_methodFindings hf).2, (line_of_mem_methodFindings hg).2]
    exact Nat.le_of_lt hlt

/-- The findings at the anchor of a method are those of this method. -/
theorem filter_anchor_findings {m : Method} (hm : m ∈ Method.ofLines lines) :
    (findings path (Method.ofLines lines)).filter (·.line = m.anchor) = methodFindings path m := by
  have hanchor := (Method.inOrder_ofLines lines).pairwise_anchor
  obtain ⟨before, after, heq⟩ := List.append_of_mem hm
  rw [heq, List.pairwise_append, List.pairwise_cons] at hanchor
  obtain ⟨-, ⟨hafter, -⟩, hbefore⟩ := hanchor
  have hother : ∀ {others : List Method}, (∀ a ∈ others, a.anchor ≠ m.anchor) →
      (findings path others).filter (·.line = m.anchor) = [] := by
    intro others hne
    refine List.filter_eq_nil_iff.2 fun f hf => ?_
    obtain ⟨a, ha, -, hline⟩ := exists_method_of_mem_findings hf
    simpa [hline] using hne a ha
  have hself : (methodFindings path m).filter (·.line = m.anchor) = methodFindings path m :=
    List.filter_eq_self.2 fun f hf => by simp [(line_of_mem_methodFindings hf).2]
  have hbefore' := hother fun a ha => Nat.ne_of_lt (hbefore a ha m List.mem_cons_self)
  have hafter' := hother fun b hb => Nat.ne_of_gt (hafter b hb)
  unfold findings at hbefore' hafter' ⊢
  rw [heq, List.flatMap_append, List.flatMap_cons, List.filter_append, List.filter_append, hbefore', hself, hafter',
    List.nil_append, List.append_nil]

end Compliance

/-! ## Findings about the header and the guard -/

namespace HeaderReview

/-- The findings about a header point at its lines. -/
theorem Layout.of_mem_findings {content : Text} {above inside below : List Line}
    (h : Layout content above inside below) {path : Path} {f : Finding} (hf : f ∈ (ofContent path content).findings) :
    f.path = path ∧ above.length + 1 ≤ f.line ∧ f.line ≤ above.length + inside.length := by
  have hinside : 0 < inside.length := by
    have := List.length_pos_of_ne_nil h.first.closed.nonempty
    rwa [List.length_map] at this
  rw [h.findings_eq, List.mem_append] at hf
  rcases hf with hf | hf
  · obtain ⟨line, hl, hfinding⟩ := List.mem_filterMap.1 hf
    obtain ⟨name, -, rfl⟩ := Option.map_eq_some_iff.1 hfinding
    exact ⟨rfl, h.number_bounds hl⟩
  · have htag : f.path = path ∧ f.line = above.length + 1 := by
      rcases List.mem_append.1 hf with hf | hf
      all_goals
        split at hf
        · cases hf
        · rw [List.mem_singleton.1 hf]
          exact ⟨rfl, rfl⟩
    obtain ⟨hpath, hline⟩ := htag
    exact ⟨hpath, by omega, by omega⟩

theorem of_mem_findings {path : Path} {content : Text} {f : Finding} (hf : f ∈ (ofContent path content).findings) :
    f.path = path ∧ 1 ≤ f.line ∧ f.line ≤ max 1 (Line.ofContent content).length := by
  rcases exists_layout_or content with ⟨above, inside, below, h⟩ | hnone
  · obtain ⟨hpath, hfirst, hlast⟩ := h.of_mem_findings hf
    have hlength : (Line.ofContent content).length = above.length + inside.length + below.length := by
      rw [h.lines, List.length_append, List.length_append]
    exact ⟨hpath, by omega, by omega⟩
  · rw [ofContent_of_none path hnone, missing, List.mem_singleton] at hf
    rw [hf]
    exact ⟨rfl, Nat.le_refl 1, Nat.le_max_left 1 _⟩

end HeaderReview

/-! ## All findings -/

namespace ContentReview

theorem of_mem_findings {path : Path} {role : FileRole} {options : LintOptions} {content : Text} {f : Finding}
    (hf : f ∈ (ofContent path role options content).findings) :
    f.path = path ∧ 1 ≤ f.line ∧ f.line ≤ max 1 (Line.ofContent content).length := by
  simp only [ofContent, List.mem_append] at hf
  rcases hf with (hf | hf) | hf
  · exact HeaderReview.of_mem_findings hf
  · split at hf
    · unfold IncludeGuard.findings at hf
      split at hf
      · cases hf
      · rw [List.mem_singleton.1 hf]
        exact ⟨rfl, Nat.le_refl 1, Nat.le_max_left 1 _⟩
    · cases hf
  · split at hf
    · rename_i hchecks
      rw [hchecks, Bool.true_or, if_pos rfl] at hf
      obtain ⟨m, hm, hpath, hline⟩ := Compliance.exists_method_of_mem_findings hf
      have hbounds := (Method.inOrder_ofLines content.lines).anchor_bounds hm
      have hlength : content.lines.length = (Line.ofContent content).length := by rw [Text.lines_eq, List.length_map]
      rw [hline]
      exact ⟨hpath, hbounds.1, by omega⟩
    · cases hf

/-- **Every finding points at the right line.** The findings of a review have the path of the file and a line of it, or
line 1 in an empty file, and the edits are inside the header. The findings about methods come in the order of their
lines. Each of them points at the line where the comment of a method begins, which has the mark for it, or at the first
line of a method without comment; and at the line of a method without comment there is this one finding. -/
theorem findings_inPlace (path : Path) (role : FileRole) (options : LintOptions) (content : Text) :
    let review := ofContent path role options content
    let methods := Method.ofLines content.lines
    let found := Compliance.findings path methods
    (∀ f ∈ review.findings, f.path = path ∧ 1 ≤ f.line ∧ f.line ≤ max 1 (Line.ofContent content).length) ∧
    (∀ edit ∈ review.header.edits, ∃ header, review.header.header = some header ∧
      header.startLine ≤ edit.line ∧ edit.line ≤ header.endLine) ∧
    found.Pairwise (·.line ≤ ·.line) ∧
    (∀ f ∈ found, ∃ m ∈ methods,
      (∃ comment, m.comment = some comment ∧ f.line = comment.startLine ∧
        ∃ line ∈ lineAt? content.lines f.line, DocComment.opens line = true) ∨
      (m.comment = none ∧ f.line = m.declaration.startLine)) ∧
    ∀ m ∈ methods, m.comment = none → found.filter (·.line = m.declaration.startLine) =
      [Finding.ofProblem path m.declaration.startLine (.undocumented m.declaration.signature.text)] := by
  intro review methods found
  refine ⟨fun f hf => of_mem_findings hf, fun edit hedit => ?_, Compliance.pairwise_line_findings path content.lines,
    fun f hf => ?_, fun m hm hnone => ?_⟩
  · rcases HeaderReview.exists_layout_or content with ⟨above, inside, below, h⟩ | hmissing
    · obtain ⟨line, hl, -, rfl⟩ := (h.mem_edits_iff path).1 hedit
      exact ⟨_, h.header_eq path, h.number_bounds hl⟩
    · have hreview : review.header = HeaderReview.missing path := HeaderReview.ofContent_of_none path hmissing
      rw [hreview] at hedit
      cases hedit
  · obtain ⟨m, hm, -, hline⟩ := Compliance.exists_method_of_mem_findings hf
    refine ⟨m, hm, ?_⟩
    cases hcomment : m.comment with
    | none => exact .inr ⟨rfl, hline.trans (Method.anchor_of_none hcomment)⟩
    | some comment =>
      rw [Method.anchor_of_some hcomment] at hline
      rw [hline]
      exact .inl ⟨comment, rfl, rfl, Method.opens_of_comment hm hcomment⟩
  · have hfilter := @Compliance.filter_anchor_findings path content.lines m hm
    rw [Method.anchor_of_none hnone, Compliance.methodFindings, hnone] at hfilter
    exact hfilter

end ContentReview
end DocLint
