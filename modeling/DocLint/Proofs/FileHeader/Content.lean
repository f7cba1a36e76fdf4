import DocLint.Proofs.FileHeader.Settled

/-!
# What a header line says

The gist of a text is what is left of it without blanks, colons and tag signs and without regard to the case of letters
(`Text.gist`). The first three passes keep the gist of a line, since a legacy word and its tag have the same
(`TagReader.gist_replaceAll`); the date pass shortens at most one `creation date` or `created on` to `date`
(`Renewal.gist_renewDate`). Together with the blanks before the line this is all that a renewal may change
(`Renewal.gist_ofLine`).
-/

namespace DocLint

open Text (isBlank)

/-! ## The gist of a text -/

namespace Text

/-- The text in small letters, without its blanks, colons and tag signs. -/
def gist (s : Text) : Text := (s.filter fun c => !(c == ':' || c == '@' || isBlank c)).map Char.toLower

@[simp] theorem gist_nil : gist [] = [] := rfl

@[simp] theorem gist_append (s t : Text) : gist (s ++ t) = gist s ++ gist t := by
  rw [gist, gist, gist, List.filter_append, List.map_append]

theorem gist_cons (c : Char) (s : Text) : gist (c :: s) = gist [c] ++ gist s := gist_append [c] s

@[simp] theorem gist_colon : gist [':'] = [] := rfl

theorem gist_of_blanks {s : Text} (h : ∀ c ∈ s, isBlank c = true) : gist s = [] := by
  rw [gist, List.map_eq_nil_iff, List.filter_eq_nil_iff]
  intro c hc
  simp [h c hc]

/-- The gist of a letter is the small letter. -/
theorem gist_letter {c : Char} (h : (65 ≤ c.toNat ∧ c.toNat ≤ 90) ∨ (97 ≤ c.toNat ∧ c.toNat ≤ 122)) :
    gist [c] = [c.toLower] := by
  have hblank : isBlank c = false := by
    rw [← Bool.not_eq_true]
    intro hblank
    have hstart := isTagStart_of_isBlank hblank
    rw [isTagStart_iff.2 (.inr h)] at hstart
    cases hstart
  have hcolon : c ≠ ':' := by
    rintro rfl
    revert h
    decide
  have hsign : c ≠ '@' := by
    rintro rfl
    revert h
    decide
  simp [gist, hblank, hcolon, hsign]

theorem gist_toLower (c : Char) : gist [c.toLower] = gist [c] := by
  rcases toLower_eq_or c with h | ⟨hlow, hhigh, hcode⟩
  · rw [h]
  · have hsmall : c.toLower.toLower = c.toLower := (toLower_eq_or c.toLower).resolve_right fun ⟨_, hle, _⟩ => by omega
    rw [gist_letter (.inr ⟨by omega, by omega⟩), gist_letter (.inl ⟨hlow, hhigh⟩), hsmall]

/-- The gist does not depend on the case of letters. -/
theorem gist_map_toLower (s : Text) : gist (s.map Char.toLower) = gist s := by
  induction s with
  | nil => rfl
  | cons c s ih => rw [List.map_cons, gist_cons, gist_cons c, gist_toLower, ih]

end Text

/-! ## Matches and passes -/

/-- A renewed match says the same as the match when its tag says the same as the word that it had. -/
theorem TagMatch.gist_renewed {m : TagMatch} (hm : m.Spelled) (hword : m.written.gist = m.tag.text.gist) {gap : Text}
    (hgap : gap = m.gap ∨ gap = [' ']) : (m.renewed gap).gist = m.source.gist := by
  simp only [TagMatch.renewed, TagMatch.source, Text.gist_append, Text.gist_of_blanks hm.gap,
    Text.gist_of_blanks (Retagged.isBlank_of_gap hm hgap), hword]

namespace TagReader

variable {reader : TagReader}

/-- The words that the reader finds say what their tags say. -/
def Faithful (reader : TagReader) : Prop :=
  ∀ ⦃atStart : Bool⦄ ⦃s : Text⦄ ⦃m : TagMatch⦄, reader atStart s = some m → m.written.gist = m.tag.text.gist

theorem gist_replaceAll (hr : Sound reader) (hword : Faithful reader) {replacement : TagMatch → Text}
    (hren : Retagged.Renews replacement) (line : Text) : (reader.replaceAll replacement line).gist = line.gist := by
  rw [replaceAll_eq]
  refine pieces_induction hr (motive := fun _ s ps =>
    Text.gist (ps.flatMap (Piece.replaced replacement)) = s.gist) (fun _ => rfl) ?_ ?_ true line
  · intro _ m ps hread hm ih
    have hmatch : (replacement m).gist = m.source.gist := by
      rcases hren m with hsame | ⟨gap, hgap, hrenewed⟩
      · rw [hsame]
      · rw [hrenewed, TagMatch.gist_renewed hm (hword hread) hgap]
    rw [List.flatMap_cons, Text.gist_append, Text.gist_append, ih, Piece.replaced, hmatch]
  · intro _ c rest ps ih
    rw [List.flatMap_cons, Text.gist_append, Text.gist_cons c, ih, Piece.replaced]

theorem legacyFile_faithful : Faithful legacyFile := by
  intro atStart s m h
  rw [← Text.gist_map_toLower, legacyFile_written h, legacyFile_tag h]
  decide

theorem legacyAuthor_faithful : Faithful legacyAuthor := by
  intro atStart s m h
  rw [← Text.gist_map_toLower, legacyAuthor_written h, legacyAuthor_tag h]
  decide

theorem coloned_faithful : Faithful coloned := by
  intro atStart s m h
  obtain ⟨blanks, hblanks, -, hwritten, -⟩ := coloned_eq_some h
  simp [hwritten, Text.gist_of_blanks hblanks]

/-- The words of a date say `date`, `creationdate` or `createdon`. -/
theorem gist_legacyDate {atStart : Bool} {s : Text} {m : TagMatch} (h : legacyDate atStart s = some m) :
    m.written.gist = m.tag.text.gist ∨ m.written.gist ∈ ["creationdate".toList, "createdon".toList] := by
  obtain ⟨htag, hword⟩ := legacyDate_written h
  rw [← Text.gist_map_toLower, htag]
  revert hword
  generalize m.written.map Char.toLower = word
  revert word
  decide

end TagReader

namespace Renewal

variable (fileName line : Text)

theorem gist_renewFile : (renewFile fileName line).gist = line.gist :=
  TagReader.gist_replaceAll TagReader.legacyFile_sound TagReader.legacyFile_faithful (Retagged.renews_file fileName) line

theorem gist_dropColons : (dropColons line).gist = line.gist :=
  TagReader.gist_replaceAll TagReader.coloned_sound TagReader.coloned_faithful
    (fun m => .inr ⟨_, Retagged.colonedGap_eq_or m, rfl⟩) line

theorem gist_renewAuthor : (renewAuthor line).gist = line.gist :=
  TagReader.gist_replaceAll TagReader.legacyAuthor_sound TagReader.legacyAuthor_faithful
    (fun m => .inr ⟨_, Retagged.orSpace_eq_or m.gap, rfl⟩) line

/-- The date pass shortens one of the long words to `date`, or keeps the gist. -/
theorem gist_renewDate : (renewDate line).gist = line.gist ∨
    ∃ front word rest, word ∈ ["creationdate".toList, "createdon".toList] ∧ line.gist = front ++ word ++ rest ∧
      (renewDate line).gist = front ++ "date".toList ++ rest := by
  unfold renewDate
  split
  · exact .inl rfl
  · rcases TagReader.replaceFirstFrom_eq_or TagReader.legacyDate (fun m => m.renewed [' ']) true line with
      hsame | ⟨atStart, front, s, m, hline, hread, hrenewed⟩
    · exact .inl (congrArg Text.gist hsame)
    · obtain ⟨heq, hm⟩ := TagReader.legacyDate_sound hread
      rw [TagReader.replaceFirst, hrenewed, hline, heq]
      rcases TagReader.gist_legacyDate hread with hword | hword
      · left
        simp only [Text.gist_append, TagMatch.gist_renewed hm hword (.inr rfl)]
      · right
        refine ⟨(front ++ m.lead).gist, m.written.gist, (m.value ++ m.after).gist, hword, ?_, ?_⟩
        · simp only [TagMatch.source, Text.gist_append, Text.gist_of_blanks hm.gap, List.append_assoc, List.nil_append]
        · have htext : Tag.date.text.gist = "date".toList := by decide
          have hspace : Text.gist [' '] = [] := by decide
          simp only [TagMatch.renewed, Text.gist_append, (TagReader.legacyDate_written hread).1, htext, hspace,
            List.append_assoc, List.nil_append]

/-- **A renewal drops nothing that a line says:** without regard to blanks, colons, tag signs and case the line stays
as it is, up to one `creation date` or `created on` that becomes `date`. The blanks before it stay, too. -/
theorem gist_ofLine :
    ((ofLine fileName line).text.gist = line.gist ∨
      ∃ front word rest, word ∈ ["creationdate".toList, "createdon".toList] ∧ line.gist = front ++ word ++ rest ∧
        (ofLine fileName line).text.gist = front ++ "date".toList ++ rest) ∧
    Text.leadingBlanks (ofLine fileName line).text = Text.leadingBlanks line := by
  refine ⟨?_, leadingBlanks_ofLine fileName line⟩
  have hbefore : (renewAuthor (dropColons (renewFile fileName line))).gist = line.gist := by
    rw [gist_renewAuthor, gist_dropColons, gist_renewFile]
  rw [← hbefore]
  exact gist_renewDate _

end Renewal
end DocLint
