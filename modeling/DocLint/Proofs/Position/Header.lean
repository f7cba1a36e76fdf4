import DocLint.FileHeader
import DocLint.Proofs.DocComment
import DocLint.Proofs.Position.Access

/-!
# The header by line numbers

The first comment of a file can be read off its lines from the position of the first line that begins one
(`Positional.firstComment`), and the lines of a header by their numbers, which are one more than their positions
(`Positional.headerLines`). A comment that was found begins with a line of the file and does not end before it, so its
line numbers are none below 1 and none past the end, and the review of a header by line numbers
(`Positional.reviewHeader`) is `HeaderReview.ofContent`.
-/

namespace DocLint
namespace Positional

/-! ## The program -/

/-- The comment that begins at the position `start`, when `collected` are its trimmed lines before the position
`start + offset`, from which on the given lines are. -/
def collectFrom (start : Nat) : (offset : Nat) → (collected : List Text) → List Text → Option DocComment
  | _, _, [] => none
  | offset, collected, line :: rest =>
    if DocComment.closes line then some ⟨start + 1, start + offset + 1, collected ++ [Text.trim line]⟩
    else collectFrom start (offset + 1) (collected ++ [Text.trim line]) rest

/-- The comment that begins at a position. -/
def collectBlock (lines : List Text) (start : Nat) : Checked (Option DocComment) := do
  let rest ← slice lines start lines.length
  return collectFrom start 0 [] rest

/-- The first comment of a file. -/
def firstComment (lines : List Text) : Checked (Option DocComment) :=
  match lines.findIdx? DocComment.opens with
  | none => return none
  | some start => collectBlock lines start

/-- The line of a header with a number. -/
def headerLine (fileName : Text) (texts : List Text) (number : Nat) : Checked HeaderLine := do
  let i ← minus number 1
  let text ← item texts i
  return ⟨number, text, Renewal.ofLine fileName text⟩

/-- The lines of the header, of which there is room for as many as it has. -/
def headerLines (fileName : Text) (texts : List Text) (header : DocComment) : Checked (List HeaderLine) := do
  let _room ← minus header.endLine header.startLine
  (List.range' header.startLine (header.endLine + 1 - header.startLine)).mapM (headerLine fileName texts)

/-- What the lines of a header say. -/
def reviewOf (path : Path) (fileName : Text) (header : DocComment) (lines : List HeaderLine) : HeaderReview :=
  let renewed := Text.spaced (lines.map (·.renewal.text))
  let hasFileTag := HeaderReview.namesFile fileName renewed
  let hasAuthorTag := HeaderReview.namesAuthor renewed
  { header := some header
    hasFileTag := hasFileTag
    hasAuthorTag := hasAuthorTag
    edits := lines.filterMap (·.edit?)
    findings := lines.filterMap (·.finding? path fileName) ++
      (if hasFileTag then [] else [Finding.ofProblem path header.startLine (.noFileTag fileName)]) ++
      (if hasAuthorTag then [] else [Finding.ofProblem path header.startLine .noAuthorTag]) }

/-- The header check of a file. -/
def reviewHeader (path : Path) (content : Text) : Checked HeaderReview := do
  let texts := (Line.ofContent content).map (·.text)
  match ← firstComment texts with
  | none => return HeaderReview.missing path
  | some header => do
    let lines ← headerLines (path.fileName?.getD []) texts header
    return reviewOf path (path.fileName?.getD []) header lines

/-! ## Comments -/

section Comments

theorem collectFrom_eq (start : Nat) (lines : List Text) (offset : Nat) (collected : List Text) :
    collectFrom start offset collected lines =
      (DocComment.untilClose? lines).map fun block =>
        ⟨start + 1, start + offset + block.length, collected ++ block⟩ := by
  induction lines generalizing offset collected with
  | nil => rfl
  | cons line rest ih =>
    rw [collectFrom, DocComment.untilClose?]
    split
    · rfl
    · rw [ih, Option.map_map]
      refine congrArg (Option.map · (DocComment.untilClose? rest)) (funext fun block => ?_)
      simp only [Function.comp, List.length_cons, List.append_assoc, List.singleton_append, Nat.add_assoc,
        Nat.add_comm 1]

theorem firstFrom?_eq (lines : List Text) (number : Nat) : DocComment.firstFrom? number lines =
    match lines.findIdx? DocComment.opens with
    | none => none
    | some start => (DocComment.untilClose? (lines.drop start)).map fun block =>
      ⟨number + start, number + start + block.length - 1, block⟩ := by
  induction lines generalizing number with
  | nil => rfl
  | cons line rest ih =>
    rw [DocComment.firstFrom?, List.findIdx?_cons]
    split
    · rfl
    · rw [ih]
      cases rest.findIdx? DocComment.opens with
      | none => rfl
      | some start =>
        simp only [Option.map_some, List.drop_succ_cons, Nat.add_assoc, Nat.add_comm 1]

/-- **No access fails on the way to the first comment.** -/
theorem firstComment_eq (lines : List Text) : firstComment lines = .ok (DocComment.first? lines) := by
  rw [firstComment, DocComment.first?, firstFrom?_eq]
  cases hstart : lines.findIdx? DocComment.opens with
  | none => rfl
  | some start =>
    have hlt : start < lines.length := (List.findIdx?_eq_some_iff_findIdx_eq.1 hstart).1
    dsimp only
    rw [collectBlock, slice_to_end (Nat.le_of_lt hlt), ok_bind, collectFrom_eq]
    refine congrArg (fun found => Except.ok (Option.map found _)) (funext fun block => ?_)
    rw [Nat.add_comm 1 start, Nat.add_right_comm start 1, Nat.add_sub_cancel, List.nil_append]
    rfl

end Comments

/-! ## Header lines -/

section Header

/-- The lines of a block by their numbers. -/
theorem mapM_headerLine (fileName : Text) (above block below : List Text) :
    (List.range' (above.length + 1) block.length).mapM (headerLine fileName (above ++ (block ++ below))) =
      .ok (block.mapIdx fun i text => ⟨above.length + 1 + i, text, Renewal.ofLine fileName text⟩) := by
  induction block generalizing above with
  | nil => rfl
  | cons line block ih =>
    have hrest := ih (above ++ [line])
    rw [List.append_assoc, List.length_append, List.length_singleton] at hrest
    have hline : headerLine fileName (above ++ (line :: block ++ below)) (above.length + 1) =
        .ok ⟨above.length + 1, line, Renewal.ofLine fileName line⟩ := by
      rw [headerLine, minus_eq (Nat.le_add_left 1 _), ok_bind, Nat.add_sub_cancel, List.cons_append, item_append]
      rfl
    have hmore : (List.range' (above.length + 1 + 1) block.length).mapM
        (headerLine fileName (above ++ (line :: block ++ below))) = _ := hrest
    simp only [Nat.add_assoc (above.length + 1) 1, Nat.add_comm 1] at hmore
    rw [List.length_cons, List.range'_succ, List.mapM_cons, hline, ok_bind, hmore, List.mapIdx_cons]
    rfl

/-- **No access fails in the review of a header.** -/
theorem reviewHeader_eq (path : Path) (content : Text) :
    reviewHeader path content = .ok (HeaderReview.ofContent path content) := by
  rw [reviewHeader, HeaderReview.ofContent, firstComment_eq, ok_bind]
  cases hfirst : DocComment.first? ((Line.ofContent content).map (·.text)) with
  | none => rfl
  | some header =>
    obtain ⟨above, block, below, htexts, hisFirst, rfl⟩ := DocComment.first?_eq_some_iff.1 hfirst
    have hpos := List.length_pos_iff_ne_nil.2 hisFirst.closed.nonempty
    have hsize : above.length + block.length + 1 - (above.length + 1) = block.length := by omega
    have hlines := mapM_headerLine (path.fileName?.getD []) above block below
    rw [htexts]
    dsimp only
    rw [headerLines, minus_eq (by dsimp only; omega), ok_bind]
    dsimp only
    rw [hsize, List.append_assoc, hlines, ok_bind]
    have hheader : HeaderLine.ofHeader (path.fileName?.getD [])
        ⟨above.length + 1, above.length + block.length, block.map Text.trim⟩ (above ++ (block ++ below)) =
        block.mapIdx fun i text => ⟨above.length + 1 + i, text, Renewal.ofLine (path.fileName?.getD []) text⟩ := by
      simp only [HeaderLine.ofHeader, Nat.add_sub_cancel, hsize, List.drop_left, List.take_left]
    rw [HeaderReview.ofHeader, hheader]
    rfl

end Header

end Positional
end DocLint
