import DocLint.FileHeader
import DocLint.Proofs.Line

/-!
# Edits of lines

A line has the text of the first edit with its number, or its own text (`Edit.GivesText`, `Edit.textOf_eq_iff`). Edits
of other lines leave a content as it is (`Edit.applyAll_eq_self`), and edits keep the lines apart as long as each new
text fits the ending of its line (`Edit.ofContent_applyAll`). That lines are cut without loss and edits replace nothing
but the texts that they name is put together in `HeaderReview.apply_replaces`.
-/

namespace DocLint

/-! ## Texts of edited lines -/

namespace Edit

variable {edits : List Edit} {line : Line} {text content : Text}

/-- The edits give the line this text: the first edit with the number of the line has it, or there is none and it is the
text of the line itself. -/
inductive GivesText (edits : List Edit) (line : Line) : Text → Prop
  | edited {before after : List Edit} {edit : Edit} : edits = before ++ edit :: after → edit.line = line.number →
      (∀ other ∈ before, other.line ≠ line.number) → GivesText edits line edit.new
  | kept : (∀ edit ∈ edits, edit.line ≠ line.number) → GivesText edits line line.text

theorem textOf_of_first {before after : List Edit} {edit : Edit} (hedit : edit.line = line.number)
    (hbefore : ∀ other ∈ before, other.line ≠ line.number) : textOf (before ++ edit :: after) line = edit.new := by
  have hfind : (before ++ edit :: after).find? (·.line = line.number) = some edit :=
    List.find?_eq_some_iff_append.2 ⟨decide_eq_true hedit, before, after, rfl, fun other hother => by
      simpa using hbefore other hother⟩
  simp only [textOf, hfind]

theorem textOf_of_forall_ne (h : ∀ edit ∈ edits, edit.line ≠ line.number) : textOf edits line = line.text := by
  have hfind : edits.find? (·.line = line.number) = none := by simpa using h
  simp only [textOf, hfind]

/-- **A line gets the text of the first edit with its number**, and keeps its own without one. -/
theorem textOf_eq_iff : textOf edits line = text ↔ GivesText edits line text := by
  constructor
  · rintro rfl
    cases hfind : edits.find? (·.line = line.number) with
    | none =>
      rw [List.find?_eq_none] at hfind
      have hne : ∀ edit ∈ edits, edit.line ≠ line.number := fun edit hmem => by simpa using hfind edit hmem
      rw [textOf_of_forall_ne hne]
      exact .kept hne
    | some edit =>
      obtain ⟨hedit, before, after, rfl, hbefore⟩ := List.find?_eq_some_iff_append.1 hfind
      have hnumber : edit.line = line.number := of_decide_eq_true hedit
      have hothers : ∀ other ∈ before, other.line ≠ line.number := fun other hother => by simpa using hbefore other hother
      rw [textOf_of_first hnumber hothers]
      exact .edited rfl hnumber hothers
  · rintro (⟨rfl, hedit, hbefore⟩ | hne)
    · exact textOf_of_first hedit hbefore
    · exact textOf_of_forall_ne hne

/-- Edits that name no line of the content leave it as it is. -/
theorem applyAll_eq_self (h : ∀ line ∈ Line.ofContent content, ∀ edit ∈ edits, edit.line ≠ line.number) :
    applyAll edits content = content := by
  calc applyAll edits content
      = (Line.ofContent content).flatMap Line.raw :=
        List.flatMap_congr fun line hl => by rw [textOf_of_forall_ne (h line hl)]; rfl
    _ = content := (Line.ofContent_eq_iff.1 rfl).2

/-- **Edits keep the lines apart**: when the new texts fit their lines, cutting the edited content gives the lines with
the new texts. -/
theorem ofContent_applyAll (h : ∀ line ∈ Line.ofContent content, line.Fits (textOf edits line)) :
    Line.ofContent (applyAll edits content) =
      (Line.ofContent content).map fun line => { line with text := textOf edits line } := by
  refine Line.ofContent_eq_iff.2 ⟨(Line.ofContent_eq_iff.1 rfl).1.map h, ?_⟩
  rw [List.flatMap_map]
  rfl

end Edit

/-! ## Lines without loss -/

namespace Line

/-- The lines have the characters of the content in their texts and endings, and the numbers 1, 2, 3 and so on. Only the
last line may be unended. The texts are those of the lines without their endings. -/
structure AreLinesOf (content : Text) (lines : List Line) : Prop where
  whole : lines.flatMap (fun line => line.text ++ line.ending) = content
  numbers : lines.map (·.number) = List.range' 1 lines.length
  lineFeed : ∀ line ∈ lines, '\n' ∉ line.text
  ended : ∀ line ∈ lines.dropLast, line.ending = lf ∨ line.ending = crlf
  ending : ∀ line ∈ lines, line.ending ∈ [lf, crlf, []]
  /-- A carriage return before a line feed belongs to the ending. -/
  carriageReturn : ∀ line ∈ lines, line.ending = lf → line.text.getLast? ≠ some '\r'
  texts : lines.map (·.text) = Text.lines content

theorem areLinesOf_ofContent (content : Text) : AreLinesOf content (ofContent content) := by
  obtain ⟨hcut, hwhole⟩ := ofContent_eq_iff.1 (rfl : ofContent content = _)
  exact {
    whole := hwhole
    numbers := hcut.map_number
    lineFeed := fun line hl => (hcut.fits line hl).lineFeed
    ended := hcut.ending.1
    ending := hcut.ending.2
    carriageReturn := fun line hl => (hcut.fits line hl).carriageReturn
    texts := (Text.lines_eq content).symm }

/-- Only the carriage return right before a line feed belongs to an ending. -/
example : ofContent "a\r\r\n\rb\r".toList = [⟨1, "a\r".toList, crlf⟩, ⟨2, "\rb\r".toList, []⟩] := by decide

end Line

namespace HeaderReview

/-- **Lines are cut without loss, and edits replace the texts that they name.** The lines of a content make it up again,
and have the texts that the content has without its line endings. Applying the edits of a review gives every line the
text of the first edit with its number, or its own, and copies the endings; if no edit has the number of a line, the
content stays as it is. -/
theorem apply_replaces (review : HeaderReview) (content : Text) :
    Line.AreLinesOf content (Line.ofContent content) ∧
    (∃ texts, List.Forall₂ (Edit.GivesText review.edits) (Line.ofContent content) texts ∧
      review.apply content =
        (List.zipWith (fun line text => text ++ line.ending) (Line.ofContent content) texts).flatten) ∧
    ((∀ line ∈ Line.ofContent content, ∀ edit ∈ review.edits, edit.line ≠ line.number) →
      review.apply content = content) := by
  refine ⟨Line.areLinesOf_ofContent content, ⟨(Line.ofContent content).map (Edit.textOf review.edits), ?_, ?_⟩,
    Edit.applyAll_eq_self⟩
  · exact List.forall₂_map_right_iff.2 (List.forall₂_same.2 fun line _ => Edit.textOf_eq_iff.1 rfl)
  · rw [List.zipWith_map_right, List.zipWith_self]
    rfl

end HeaderReview
end DocLint
