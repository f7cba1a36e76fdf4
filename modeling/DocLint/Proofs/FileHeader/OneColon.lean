import DocLint.Proofs.FileHeader.Settled
import DocLint.Proofs.FileHeader.Tally

/-!
# Lines with one colon

In a line with one colon the legacy readers and that of tags with a colon cannot each find something: the text before
the colon ends in one word only. So one run is enough for such a line (`settled_of_count_le_one`), and a line that is
not settled by one run has two colons or more.
-/

namespace DocLint

/-! ## The word before the colon -/

/-- The last two characters of a text are the two letters, in any case. -/
def Text.EndsIn (a b : Char) (s : Text) : Prop :=
  ∃ front c d, s = front ++ [c, d] ∧ c.toLower = a ∧ d.toLower = b

theorem Text.EndsIn.unique {a b a' b' : Char} {s : Text} (h : EndsIn a b s) (h' : EndsIn a' b' s) :
    a = a' ∧ b = b' := by
  obtain ⟨front, c, d, rfl, rfl, rfl⟩ := h
  obtain ⟨front', c', d', heq, rfl, rfl⟩ := h'
  have hlast := (List.append_inj' heq rfl).2
  cases hlast
  exact ⟨rfl, rfl⟩

theorem Text.endsIn_of_map_toLower {front s word : Text} {a b : Char} (h : s.map Char.toLower = word ++ [a, b]) :
    EndsIn a b (front ++ s) := by
  obtain ⟨begin', last, rfl, -, hlast⟩ := List.map_eq_append_iff.1 h
  obtain ⟨c, last', rfl, hc, hlast'⟩ := List.map_eq_cons_iff.1 hlast
  obtain ⟨d, rest, rfl, hd, hrest⟩ := List.map_eq_cons_iff.1 hlast'
  obtain rfl := List.map_eq_nil_iff.1 hrest
  exact ⟨front ++ begin', c, d, by simp, hc, hd⟩

namespace TagReader

variable {reader : TagReader} {line front : Text} {m : TagMatch}

/-- A match has the only colon of the line. -/
theorem before_colon_eq (hm : m.Spelled) (hline : line = front ++ (m.source ++ m.after)) (hone : line.count ':' ≤ 1) :
    ∃ word, m.written = word ++ [':'] ∧ Text.before ':' line = front ++ m.lead ++ word := by
  obtain ⟨head, body, hw, hhead, hbody⟩ := hm.written
  refine ⟨head :: body, hw, ?_⟩
  have hsplit : line = (front ++ m.lead ++ head :: body) ++ ':' :: (m.gap ++ m.value ++ m.after) := by
    simp [hline, TagMatch.source, hw]
  have hnone : ':' ∉ front ++ m.lead ++ head :: body := by
    rw [hsplit, List.count_append, List.count_cons_self] at hone
    exact List.count_eq_zero.1 (by omega)
  rw [hsplit, Text.before_append_cons hnone]

theorem legacyFile_before (hm : m ∈ legacyFile.hits line) (hone : line.count ':' ≤ 1) :
    ∃ pre word, Text.before ':' line = pre ++ word ∧ word.map Char.toLower = "file".toList ∧
      pre.getLast? ≠ some '@' := by
  obtain ⟨atStart, front, hline, hread, hstart⟩ := exists_of_mem_hits legacyFile_sound hm
  obtain ⟨word, hw, hbefore⟩ := before_colon_eq (spelled_of_mem_hits legacyFile_sound hm) hline hone
  have hword := legacyFile_written hread
  rw [hw, List.map_append] at hword
  refine ⟨front ++ m.lead, word, hbefore, (List.append_inj' hword rfl).1, ?_⟩
  rcases afterLead_eq_some (legacyFile_eq ▸ hread) with ⟨htrue, hbody⟩ | ⟨c, rest, m', -, -, hc, -, heq⟩
  · rw [hstart htrue, (fileAt_eq_some hbody).1]
    simp
  · rw [heq]
    simp only [List.getLast?_append, List.getLast?_singleton, Option.some_or, ne_eq, Option.some.injEq]
    rintro rfl
    exact hc List.mem_cons_self

theorem legacyFile_endsIn (hm : m ∈ legacyFile.hits line) (hone : line.count ':' ≤ 1) :
    Text.EndsIn 'l' 'e' (Text.before ':' line) := by
  obtain ⟨pre, word, hbefore, hword, -⟩ := legacyFile_before hm hone
  have hword' : word.map Char.toLower = "fi".toList ++ ['l', 'e'] := hword
  rw [hbefore]
  exact Text.endsIn_of_map_toLower hword'

/-! Beside a legacy file tag there is no other spelling. -/

theorem coloned_hits_of_legacyFile (hm : m ∈ legacyFile.hits line) (hone : line.count ':' ≤ 1) :
    coloned.hits line = [] := by
  rw [List.eq_nil_iff_forall_not_mem]
  intro m' hm'
  obtain ⟨atStart, front, hline, hread, -⟩ := exists_of_mem_hits coloned_sound hm'
  obtain ⟨blanks, hblanks, hlead, hwritten, -⟩ := coloned_eq_some hread
  obtain ⟨word, hw, hbefore⟩ := before_colon_eq (spelled_of_mem_hits coloned_sound hm') hline hone
  have hends := legacyFile_endsIn hm hone
  obtain rfl : word = m'.tag.text ++ blanks := (List.append_inj' (hw.symm.trans hwritten) rfl).1
  rw [hlead, List.append_nil, ← List.append_assoc] at hbefore
  rcases List.eq_nil_or_concat blanks with rfl | ⟨blanks', b, rfl⟩
  · rw [List.append_nil] at hbefore
    cases htag : m'.tag with
    | author =>
      rw [hbefore, htag] at hends
      have hends' : Text.EndsIn 'o' 'r' (front ++ Tag.author.text) :=
        Text.endsIn_of_map_toLower (rfl : _ = "@auth".toList ++ ['o', 'r'])
      exact absurd (hends.unique hends').1 (by decide)
    | date =>
      rw [hbefore, htag] at hends
      have hends' : Text.EndsIn 't' 'e' (front ++ Tag.date.text) :=
        Text.endsIn_of_map_toLower (rfl : _ = "@da".toList ++ ['t', 'e'])
      exact absurd (hends.unique hends').1 (by decide)
    | file =>
      -- The legacy tag would stand behind the `@` of the tag, where it is none.
      obtain ⟨pre, word, hbefore', hword, hpre⟩ := legacyFile_before hm hone
      have htext : Tag.file.text = ['@'] ++ "file".toList := rfl
      have hsplit : pre ++ word = (front ++ ['@']) ++ "file".toList := by
        rw [← hbefore', hbefore, htag, htext, List.append_assoc]
      have hlength := congrArg List.length hword
      rw [List.length_map] at hlength
      obtain ⟨rfl, -⟩ := List.append_inj' hsplit hlength
      exact hpre (by simp)
  · obtain ⟨pre, c, d, heq, -, hd⟩ := hends
    have hlast : d = b := by
      rw [hbefore, List.concat_eq_append] at heq
      have hlast := congrArg List.getLast? heq
      simpa using hlast.symm
    have hstart : Text.isTagStart d = true := Text.isTagStart_of_toLower (by rw [hd]; rfl)
    rw [hlast, Text.isTagStart_of_isBlank (hblanks b (by simp))] at hstart
    cases hstart

theorem legacyAuthor_hits_of_legacyFile (hm : m ∈ legacyFile.hits line) (hone : line.count ':' ≤ 1) :
    legacyAuthor.hits line = [] := by
  rw [List.eq_nil_iff_forall_not_mem]
  intro m' hm'
  obtain ⟨atStart, front, hline, hread, -⟩ := exists_of_mem_hits legacyAuthor_sound hm'
  obtain ⟨word, hw, hbefore⟩ := before_colon_eq (spelled_of_mem_hits legacyAuthor_sound hm') hline hone
  have hends := legacyFile_endsIn hm hone
  have hword := legacyAuthor_written hread
  rw [hw, List.map_append] at hword
  have hword' : word.map Char.toLower = "auth".toList ++ ['o', 'r'] := (List.append_inj' hword rfl).1
  rw [hbefore] at hends
  exact absurd (hends.unique (Text.endsIn_of_map_toLower hword')).1 (by decide)

theorem not_legacyDate_of_legacyFile (hm : m ∈ legacyFile.hits line) (hone : line.count ':' ≤ 1) {atStart : Bool}
    {s : Text} (hline : line = front ++ s) {m' : TagMatch} : legacyDate atStart s ≠ some m' := by
  intro hread
  obtain ⟨rfl, hspelled⟩ := legacyDate_sound hread
  obtain ⟨word, hw, hbefore⟩ := before_colon_eq hspelled hline hone
  have hends := legacyFile_endsIn hm hone
  have hword := (legacyDate_written hread).2
  rw [hw, List.map_append, dateWords] at hword
  rw [hbefore] at hends
  simp only [List.mem_cons, List.not_mem_nil, or_false] at hword
  rcases hword with hword | hword | hword
  · have hword' : word.map Char.toLower = "creation da".toList ++ ['t', 'e'] := (List.append_inj' hword rfl).1
    exact absurd (hends.unique (Text.endsIn_of_map_toLower hword')).1 (by decide)
  · have hword' : word.map Char.toLower = "da".toList ++ ['t', 'e'] := (List.append_inj' hword rfl).1
    exact absurd (hends.unique (Text.endsIn_of_map_toLower hword')).1 (by decide)
  · have hword' : word.map Char.toLower = "created ".toList ++ ['o', 'n'] := (List.append_inj' hword rfl).1
    exact absurd (hends.unique (Text.endsIn_of_map_toLower hword')).1 (by decide)

/-! ## Counting matches -/

/-- Each match has a colon of its own. -/
theorem length_hits_le (hr : Sound reader) (line : Text) : (reader.hits line).length ≤ line.count ':' := by
  rw [count_replaceAll hr (fun m => .inl (Eq.refl m.gap)) line]
  exact Nat.le_add_left _ _

end TagReader

namespace Renewal

variable {fileName line : Text}

/-- A line that its renewal leaves alone is settled. -/
theorem settled_of_ofLine_eq (h : (ofLine fileName line).text = line) : Settled fileName line := by
  rw [settled_iff, h]
  exact ⟨h, Iff.rfl⟩

/-- A line with one colon that has a wrong name is left alone: all that is found in it is that name. -/
theorem ofLine_eq_of_wrongName (hone : line.count ':' ≤ 1) (hwrong : wrongNameOf fileName line ≠ none) :
    (ofLine fileName line).text = line := by
  rw [Ne, wrongNameOf_eq_none_iff] at hwrong
  simp only [not_forall] at hwrong
  obtain ⟨m, hm, hname⟩ := hwrong
  have honly : TagReader.legacyFile.hits line = [m] := by
    have hlength := (TagReader.length_hits_le TagReader.legacyFile_sound line).trans hone
    match hhits : TagReader.legacyFile.hits line, hlength with
    | [], _ => rw [hhits] at hm; cases hm
    | [m'], _ => rw [hhits] at hm; rw [List.mem_singleton.1 hm]
    | _ :: _ :: _, hlength => simp at hlength
  rw [ofLine_eq_self_iff, renewFile_eq_self_iff, dropColons_eq_self_iff, renewAuthor_eq_self_iff]
  refine ⟨fun m' hm' => ?_, TagReader.coloned_hits_of_legacyFile hm hone,
    TagReader.legacyAuthor_hits_of_legacyFile hm hone, ?_⟩
  · rw [honly] at hm'
    rwa [List.mem_singleton.1 hm']
  · unfold renewDate
    split
    · rfl
    · refine (TagReader.replaceFirstFrom_eq_or _ _ true line).resolve_right ?_
      rintro ⟨atStart, front, s, m', hline, hread, -⟩
      exact TagReader.not_legacyDate_of_legacyFile hm hone hline hread

/-- **One run is enough for a line with one colon.** -/
theorem settled_of_count_le_one (fileName : Text) (hone : line.count ':' ≤ 1) : Settled fileName line := by
  rcases ofLine_eq_or_count_lt fileName line with heq | hlt
  · exact settled_of_ofLine_eq heq
  · -- The only colon is gone, and with it everything that a reader could find.
    have hnone : ∀ {reader : TagReader}, TagReader.Sound reader → reader.hits (ofLine fileName line).text = [] := by
      intro reader hr
      have hlength := TagReader.length_hits_le hr (ofLine fileName line).text
      exact List.length_eq_zero_iff.1 (by omega)
    have hright : wrongNameOf fileName line = none := by
      by_contra hwrong
      rw [ofLine_eq_of_wrongName hone hwrong] at hlt
      exact Nat.lt_irrefl _ hlt
    refine ⟨hnone TagReader.coloned_sound, hnone TagReader.legacyAuthor_sound, fun m hm => ?_, ?_⟩
    · rw [hnone TagReader.legacyFile_sound] at hm
      cases hm
    · exact iff_of_true (hnone TagReader.legacyFile_sound) hright

end Renewal
end DocLint
