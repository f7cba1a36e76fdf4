import DocLint.Proofs.FileHeader.Retagging

/-!
# Lines that their renewal leaves alone

A pass leaves a line alone exactly when it finds nothing in it to renew (`TagReader.replaceAll_eq_self_iff`): what it
renews loses a colon, and nothing else in the line can make up for that. The date pass needs no second run
(`renewDate_renewDate`). The four passes together leave a line alone exactly when each of them does
(`ofLine_eq_self_iff`), so that a line is done with after one run exactly when that run leaves nothing behind that a
pass would renew (`ofLine_ofLine_iff`).
-/

namespace DocLint

/-! ## Lines that a pass leaves alone -/

namespace TagReader

variable {reader : TagReader}

/-- **Where nothing is renewed, nothing changes, and nowhere else.** -/
theorem replaceAll_eq_self_iff (hr : Sound reader) {replacement : TagMatch → Text}
    (hren : Retagged.Renews replacement) (line : Text) :
    reader.replaceAll replacement line = line ↔ ∀ m ∈ reader.hits line, replacement m = m.source := by
  rw [replaceAll_eq, hits_eq]
  refine (pieces_induction hr (motive := fun _ s ps => Retagged s (ps.flatMap (Piece.replaced replacement)) ∧
    (ps.flatMap (Piece.replaced replacement) = s ↔ ∀ m ∈ ps.filterMap Piece.hit?, replacement m = m.source))
    (fun _ => ⟨.nil, by simp⟩) ?_ ?_ true line).2
  · rintro _ m ps - hm ⟨hafter, ih⟩
    refine ⟨Retagged.replacement hren hm hafter, ?_⟩
    have hhits : (Piece.found m :: ps).filterMap Piece.hit? = m :: ps.filterMap Piece.hit? := rfl
    rw [hhits, List.forall_mem_cons, ← ih, List.flatMap_cons]
    constructor
    · intro heq
      rcases hren m with hsame | ⟨gap, hgap, hrenewed⟩
      · rw [Piece.replaced, hsame] at heq
        exact ⟨hsame, List.append_cancel_left heq⟩
      · -- The renewed tag has lost its colon, and no colon comes back behind it.
        have hcount := congrArg (List.count ':') heq
        have hle := hafter.count_le
        rw [List.count_append, List.count_append, Piece.replaced, hrenewed, Retagged.count_source hm,
          Retagged.count_renewed m (Retagged.isBlank_of_gap hm hgap)] at hcount
        omega
    · rintro ⟨hsame, heq⟩
      rw [Piece.replaced, hsame, heq]
  · rintro _ c rest ps ⟨hrest, ih⟩
    refine ⟨.keep c hrest, ?_⟩
    have hhits : (Piece.plain c :: ps).filterMap Piece.hit? = ps.filterMap Piece.hit? := rfl
    rw [hhits, ← ih]
    exact List.cons_inj_right c

/-- A pass that renews every match leaves a line alone exactly when it finds none. -/
theorem replaceAll_eq_self_iff_hits (hr : Sound reader) {gap : TagMatch → Text}
    (hgap : ∀ m, gap m = m.gap ∨ gap m = [' ']) (line : Text) :
    reader.replaceAll (fun m => m.renewed (gap m)) line = line ↔ reader.hits line = [] := by
  rw [replaceAll_eq_self_iff hr (fun m => .inr ⟨_, hgap m, rfl⟩), List.eq_nil_iff_forall_not_mem]
  exact forall_congr' fun m => imp_congr_right fun hm =>
    iff_false_intro (Retagged.renewed_ne_source (spelled_of_mem_hits hr hm) (hgap m))

/-- Replacing the first match leaves the text alone or puts the replacement into its place. -/
theorem replaceFirstFrom_eq_or (reader : TagReader) (replacement : TagMatch → Text) :
    ∀ (start : Bool) (line : Text), reader.replaceFirstFrom replacement start line = line ∨
      ∃ atStart front s m, line = front ++ s ∧ reader atStart s = some m ∧
        reader.replaceFirstFrom replacement start line = front ++ (replacement m ++ m.after)
  | _, [] => .inl rfl
  | start, c :: rest => by
    unfold replaceFirstFrom
    split
    · rename_i m hm
      exact .inr ⟨start, [], c :: rest, m, rfl, hm, rfl⟩
    · rcases replaceFirstFrom_eq_or reader replacement false rest with heq | ⟨atStart, front, s, m, hline, hm, heq⟩
      · exact .inl (congrArg (List.cons c) heq)
      · exact .inr ⟨atStart, c :: front, s, m, congrArg (List.cons c) hline, hm, congrArg (List.cons c) heq⟩

end TagReader

namespace Renewal

theorem renewFile_eq_self_iff (fileName line : Text) :
    renewFile fileName line = line ↔ ∀ m ∈ TagReader.legacyFile.hits line, fileNameOf m.value ≠ fileName := by
  rw [renewFile, TagReader.replaceAll_eq_self_iff TagReader.legacyFile_sound (Retagged.renews_file fileName)]
  refine forall_congr' fun m => imp_congr_right fun hm => ?_
  by_cases h : fileNameOf m.value = fileName
  · simp [h, Retagged.renewed_ne_source (TagReader.spelled_of_mem_hits TagReader.legacyFile_sound hm)
      (Retagged.orSpace_eq_or m.gap)]
  · simp [h]

theorem dropColons_eq_self_iff (line : Text) : dropColons line = line ↔ TagReader.coloned.hits line = [] :=
  TagReader.replaceAll_eq_self_iff_hits TagReader.coloned_sound Retagged.colonedGap_eq_or line

theorem renewAuthor_eq_self_iff (line : Text) : renewAuthor line = line ↔ TagReader.legacyAuthor.hits line = [] :=
  TagReader.replaceAll_eq_self_iff_hits TagReader.legacyAuthor_sound (fun m => Retagged.orSpace_eq_or m.gap) line

/-- **The date pass is done after one run:** either it finds nothing to renew, or it leaves a date tag. -/
theorem renewDate_renewDate (line : Text) : renewDate (renewDate line) = renewDate line := by
  by_cases hdate : Text.occursIn Tag.date.text line = true
  · have hsame : renewDate line = line := if_pos hdate
    rw [hsame, hsame]
  · have hfirst : renewDate line = TagReader.legacyDate.replaceFirst (fun m => m.renewed [' ']) line := if_neg hdate
    rcases TagReader.replaceFirstFrom_eq_or TagReader.legacyDate (fun m => m.renewed [' ']) true line with
      hsame | ⟨atStart, front, s, m, -, hm, hrenewed⟩
    · have hsame : renewDate line = line := hfirst.trans hsame
      rw [hsame, hsame]
    · have hmark : Text.occursIn Tag.date.text (renewDate line) = true := by
        rw [hfirst, TagReader.replaceFirst, hrenewed, TagMatch.renewed, (TagReader.legacyDate_written hm).1]
        refine Text.occursIn_iff.2 ⟨front ++ m.lead, [' '] ++ m.value ++ m.after, ?_⟩
        simp
      exact if_pos hmark

/-! ## Lines that all passes leave alone -/

/-- **No pass undoes what another one does:** a line that is the same after all passes is the same after each. -/
theorem ofLine_eq_self_iff (fileName line : Text) : (ofLine fileName line).text = line ↔
    renewFile fileName line = line ∧ dropColons line = line ∧ renewAuthor line = line ∧ renewDate line = line := by
  constructor
  · intro heq
    have hfile := Retagged.renewFile fileName line
    have hcolons := Retagged.dropColons (renewFile fileName line)
    have hauthor := Retagged.renewAuthor (dropColons (renewFile fileName line))
    have hdate := Retagged.renewDate (renewAuthor (dropColons (renewFile fileName line)))
    -- No pass adds a colon, so none can have taken one.
    have hcount : (renewDate (renewAuthor (dropColons (renewFile fileName line)))).count ':' = line.count ':' :=
      congrArg (List.count ':') heq
    have hle := hfile.count_le
    have hle' := hcolons.count_le
    have hle'' := hauthor.count_le
    have hle''' := hdate.count_le
    have hfile := hfile.eq_of_count_le (by omega)
    have hcolons := hcolons.eq_of_count_le (by omega)
    have hauthor := hauthor.eq_of_count_le (by omega)
    have hdate := hdate.eq_of_count_le (by omega)
    rw [hauthor, hcolons, hfile] at hdate
    rw [hcolons, hfile] at hauthor
    rw [hfile] at hcolons
    exact ⟨hfile, hcolons, hauthor, hdate⟩
  · rintro ⟨hfile, hcolons, hauthor, hdate⟩
    simp only [ofLine, hfile, hcolons, hauthor, hdate]

/-- Nothing is left to do on the line after one run: what the run leaves has no tag with a colon, no legacy author tag
and no legacy file tag of this file, and it names another file exactly when the line did so before. -/
structure Settled (fileName line : Text) : Prop where
  colons : TagReader.coloned.hits (ofLine fileName line).text = []
  authors : TagReader.legacyAuthor.hits (ofLine fileName line).text = []
  files : ∀ m ∈ TagReader.legacyFile.hits (ofLine fileName line).text, fileNameOf m.value ≠ fileName
  names : TagReader.legacyFile.hits (ofLine fileName line).text = [] ↔ wrongNameOf fileName line = none

/-- A second run changes nothing exactly when the first leaves nothing to renew. -/
theorem ofLine_ofLine_iff (fileName line : Text) :
    (ofLine fileName (ofLine fileName line).text).text = (ofLine fileName line).text ↔
      TagReader.coloned.hits (ofLine fileName line).text = [] ∧
        TagReader.legacyAuthor.hits (ofLine fileName line).text = [] ∧
        ∀ m ∈ TagReader.legacyFile.hits (ofLine fileName line).text, fileNameOf m.value ≠ fileName := by
  have hdate : renewDate (ofLine fileName line).text = (ofLine fileName line).text := renewDate_renewDate _
  rw [ofLine_eq_self_iff, renewFile_eq_self_iff, dropColons_eq_self_iff, renewAuthor_eq_self_iff]
  constructor
  · rintro ⟨hfiles, hcolons, hauthors, -⟩
    exact ⟨hcolons, hauthors, hfiles⟩
  · rintro ⟨hcolons, hauthors, hfiles⟩
    exact ⟨hfiles, hcolons, hauthors, hdate⟩

/-- A line has a wrong name exactly when not all its legacy file tags have the right one. -/
theorem wrongNameOf_eq_none_iff (fileName line : Text) :
    wrongNameOf fileName line = none ↔ ∀ m ∈ TagReader.legacyFile.hits line, fileNameOf m.value = fileName := by
  simp [wrongNameOf]

/-- **A line is settled exactly when a second run changes nothing and finds a wrong name where the first one did.** -/
theorem settled_iff (fileName line : Text) : Settled fileName line ↔
    (ofLine fileName (ofLine fileName line).text).text = (ofLine fileName line).text ∧
      (wrongNameOf fileName (ofLine fileName line).text = none ↔ wrongNameOf fileName line = none) := by
  rw [ofLine_ofLine_iff, wrongNameOf_eq_none_iff]
  -- Where all legacy file tags have wrong names, none has a wrong name exactly when there is none.
  have hnone : (∀ m ∈ TagReader.legacyFile.hits (ofLine fileName line).text, fileNameOf m.value ≠ fileName) →
      ((∀ m ∈ TagReader.legacyFile.hits (ofLine fileName line).text, fileNameOf m.value = fileName) ↔
        TagReader.legacyFile.hits (ofLine fileName line).text = []) := by
    intro hne
    rw [List.eq_nil_iff_forall_not_mem]
    exact forall_congr' fun m => imp_congr_right fun hm => iff_false_intro (hne m hm)
  constructor
  · intro h
    exact ⟨⟨h.colons, h.authors, h.files⟩, (hnone h.files).trans h.names⟩
  · rintro ⟨⟨hcolons, hauthors, hfiles⟩, hnames⟩
    exact ⟨hcolons, hauthors, hfiles, (hnone hfiles).symm.trans hnames⟩

end Renewal
end DocLint
