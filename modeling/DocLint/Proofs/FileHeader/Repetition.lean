import DocLint.Proofs.FileHeader.Layout
import DocLint.Proofs.FileHeader.OneColon

/-!
# Running the header check again

The edited content has its header at the same lines, each of them renewed (`Layout.apply`). So a second run is the
first one on renewed lines: it has no edits and the same findings exactly when every line of the header is settled
(`second_run_iff_settled`). That is not always so: of two colons behind a tag the first run takes one, and it misses
the tag that it leaves (`second_run_doubled_colon`).
-/

namespace DocLint
namespace HeaderReview

variable {content : Text} {above inside below : List Line}

/-! ## The second review -/

section Second

/-- A run has no edits exactly when all lines of the header are renewed already. -/
theorem Layout.edits_eq_nil_iff (h : Layout content above inside below) (path : Path) :
    (ofContent path content).edits = [] ↔
      ∀ line ∈ inside, (line.renew path.headerName).text = line.text := by
  rw [h.edits_eq, List.filterMap_eq_nil_iff]
  refine forall_congr' fun line => imp_congr_right fun _ => ?_
  rw [Option.eq_none_iff_forall_ne_some]
  constructor
  · intro hnone
    by_contra hne
    exact hnone _ (edit?_eq_some_iff.2 ⟨hne, rfl⟩)
  · intro heq edit hedit
    exact (edit?_eq_some_iff.1 hedit).1 heq

/-- A line has a finding about a wrong name exactly when it has a wrong name: the finding has the number of the line. -/
theorem Layout.mem_wrongNames_iff (h : Layout content above inside below) (path : Path) {f : Line → HeaderLine}
    (hf : ∀ line, (f line).number = line.number) {line : Line} (hl : line ∈ inside) :
    Finding.ofProblem path line.number (.wrongFileName path.headerName) ∈
        inside.filterMap (fun l => (f l).finding? path path.headerName) ↔
      (f line).renewal.wrongName ≠ none := by
  rw [List.mem_filterMap]
  constructor
  · rintro ⟨l, hl', hfinding⟩
    obtain ⟨name, hname, heq⟩ := Option.map_eq_some_iff.1 hfinding
    have hnumber : l.number = line.number := (hf l).symm.trans (congrArg Finding.line heq)
    rw [← Line.eq_of_number_eq (h.mem_ofContent hl') (h.mem_ofContent hl) hnumber, hname]
    exact Option.some_ne_none name
  · intro hne
    obtain ⟨name, hname⟩ := Option.ne_none_iff_exists'.1 hne
    refine ⟨line, hl, ?_⟩
    rw [HeaderLine.finding?, hname, hf]
    rfl

/-- So the findings are the same exactly when the same lines have wrong names. -/
theorem Layout.wrongNames_eq_iff (h : Layout content above inside below) (path : Path) {f g : Line → HeaderLine}
    (hf : ∀ line, (f line).number = line.number) (hg : ∀ line, (g line).number = line.number) :
    inside.filterMap (fun line => (f line).finding? path path.headerName) =
        inside.filterMap (fun line => (g line).finding? path path.headerName) ↔
      ∀ line ∈ inside, (f line).renewal.wrongName = none ↔ (g line).renewal.wrongName = none := by
  constructor
  · intro heq line hl
    have hmem := h.mem_wrongNames_iff path hf hl
    rw [heq, h.mem_wrongNames_iff path hg hl] at hmem
    exact not_iff_not.1 hmem.symm
  · intro hsame
    refine List.filterMap_congr fun line hl => ?_
    have hnone := hsame line hl
    rw [HeaderLine.finding?, HeaderLine.finding?, hf, hg]
    cases hwf : (f line).renewal.wrongName with
    | none => rw [hnone.1 hwf]
    | some name =>
      cases hwg : (g line).renewal.wrongName with
      | none => rw [hnone.2 hwg] at hwf; cases hwf
      | some name' => rfl

/-- **A second run** has no edits and the same findings exactly when every line of the header is settled. -/
theorem Layout.second_iff (h : Layout content above inside below) (path : Path) :
    ((ofContent path ((ofContent path content).apply content)).edits = [] ∧
        (ofContent path ((ofContent path content).apply content)).findings = (ofContent path content).findings) ↔
      ∀ line ∈ inside, Renewal.Settled path.headerName line.text := by
  have hsecond := h.apply path
  have hfindings := h.wrongNames_eq_iff path
    (f := fun line => HeaderLine.ofLine path.headerName (line.renew path.headerName))
    (g := HeaderLine.ofLine path.headerName) (fun _ => rfl) (fun _ => rfl)
  have hname : ∀ line : Line,
      (HeaderLine.ofLine path.headerName line).renewal.wrongName = Renewal.wrongNameOf path.headerName line.text :=
    fun _ => rfl
  simp only [hname] at hfindings
  have hsettled : (∀ line ∈ inside, Renewal.Settled path.headerName line.text) ↔
      (∀ line ∈ inside, ((line.renew path.headerName).renew path.headerName).text =
        (line.renew path.headerName).text) ∧
      ∀ line ∈ inside, Renewal.wrongNameOf path.headerName (line.renew path.headerName).text = none ↔
        Renewal.wrongNameOf path.headerName line.text = none := by
    simp only [Renewal.settled_iff, Line.renew_text]
    exact forall₂_and
  rw [hsettled, hsecond.edits_eq_nil_iff, List.forall_mem_map]
  refine and_congr_right fun hfixed => ?_
  -- The header of the second run is that of the first, so that the findings about tags are the same.
  have htext : renewedText path.headerName (inside.map (Line.renew path.headerName)) =
      renewedText path.headerName inside := by
    rw [renewedText, renewedText, List.map_map]
    exact congrArg Text.spaced (List.map_congr_left fun line hl => hfixed line hl)
  rw [hsecond.findings_eq, h.findings_eq, htext, List.filterMap_map, List.append_left_inj]
  exact hfindings

end Second

/-! ## Any content -/

/-- **When a second run is idle.** A second run has no edits, leaves the content alone and repeats the findings of the
first one exactly when every line of the header is settled; that is so if none of them has more than one colon. -/
theorem second_run_iff_settled (path : Path) (content : Text) :
    let first := ofContent path content
    let once := first.apply content
    let second := ofContent path once
    ((second.edits = [] ∧ second.apply once = once ∧ second.findings = first.findings) ↔
      ∀ line ∈ first.headerLines content, Renewal.Settled path.headerName line.text) ∧
    ((∀ line ∈ first.headerLines content, line.text.count ':' ≤ 1) →
      second.edits = [] ∧ second.apply once = once ∧ second.findings = first.findings) := by
  intro first once second
  have hiff : (second.edits = [] ∧ second.apply once = once ∧ second.findings = first.findings) ↔
      ∀ line ∈ first.headerLines content, Renewal.Settled path.headerName line.text := by
    have hidle : (second.edits = [] ∧ second.apply once = once ∧ second.findings = first.findings) ↔
        (second.edits = [] ∧ second.findings = first.findings) :=
      and_congr_right fun hnil => and_iff_right (apply_of_edits_eq_nil hnil)
    rw [hidle]
    rcases exists_layout_or content with ⟨above, inside, below, h⟩ | hnone
    · rw [h.headerLines_eq path]
      exact h.second_iff path
    · have hreview : first = missing path := ofContent_of_none path hnone
      have hedits : first.edits = [] := by rw [hreview]; rfl
      have honce : once = content := apply_of_edits_eq_nil hedits
      have hsecond : second = first := congrArg (ofContent path) honce
      have hlines : first.headerLines content = [] := by
        rw [hreview]
        exact List.filter_eq_nil_iff.2 fun _ _ h => absurd h Bool.false_ne_true
      rw [hsecond, hlines]
      exact iff_of_true ⟨hedits, rfl⟩ fun _ hl => absurd hl List.not_mem_nil
  exact ⟨hiff, fun hone => hiff.2 fun line hl => Renewal.settled_of_count_le_one _ (hone line hl)⟩

/-- Of two colons behind the tag the first run takes one and reports that no author is named. The second run takes the
other one, and then an author is named. -/
theorem second_run_doubled_colon :
    let path : Path := ⟨"a.cpp".toList⟩
    let content := "/**\n * @file a.cpp\n * @author:: Jane\n */\n".toList
    let first := ofContent path content
    let once := first.apply content
    let second := ofContent path once
    second.edits = [⟨3, " * @author : Jane".toList, " * @author Jane".toList⟩] ∧ second.apply once ≠ once ∧
      first.findings = [Finding.ofProblem path 1 .noAuthorTag] ∧ second.findings = [] := by
  decide

end HeaderReview
end DocLint
