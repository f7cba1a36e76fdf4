import DocLint.Proofs.Text.Occurrence
import DocLint.Proofs.FileHeader.Tally

/-!
# How many tags and colons a renewal makes and takes

The tags that a text gains are counted along a line like the colons that it loses (`Tag.Gains`). None is made or lost at
the edges of a match by chance: what stands before a legacy word is neither a tag sign nor part of a word
(`TagMatch.Unsigned`), so a word that ends before a match is the same in the line and in what becomes of it, and what
follows a match is copied.

`Renewal.counted` tells from the matches of the four passes how many tags of each kind come to a line and how many
colons go.
-/

namespace DocLint

open Text (isBlank isWordChar occurrences)

/-! ## Tags -/

namespace Tag

/-- The tag without its sign. -/
def word : Tag → Text
  | file => "file".toList
  | author => "author".toList
  | date => "date".toList

theorem text_eq (tag : Tag) : tag.text = '@' :: tag.word := by cases tag <;> rfl

theorem isWordChar_of_mem_word (tag : Tag) : ∀ c ∈ tag.word, isWordChar c = true := by
  have hall : tag.word.all isWordChar = true := by cases tag <;> decide +kernel
  exact List.all_eq_true.1 hall

theorem isWordChar_sign : isWordChar '@' = false := by decide +kernel

theorem sign_not_mem_word (tag : Tag) : '@' ∉ tag.word := by cases tag <;> decide

theorem sign_not_mem_blanks {blanks : Text} (h : ∀ c ∈ blanks, isBlank c = true) : '@' ∉ blanks := fun hsign =>
  absurd (h '@' hsign) (by decide)

theorem occurrences_append_of_not_mem {tag : Tag} {s : Text} (h : '@' ∉ s) (t : Text) :
    occurrences tag.text (s ++ t) = occurrences tag.text t := by
  rw [text_eq, Text.occurrences_append_of_not_mem h]

theorem occurrences_append_add (tag : Tag) (s : Text) {t t' : Text} (h : Text.leadingWord t = Text.leadingWord t') :
    occurrences tag.text (s ++ t) + occurrences tag.text t' =
      occurrences tag.text (s ++ t') + occurrences tag.text t := by
  rw [text_eq, Text.occurrences_append_add (isWordChar_of_mem_word tag) h]

/-- A tag holds itself once, and no other tag. -/
theorem occurrences_text_append (tag tag' : Tag) (t : Text) :
    occurrences tag.text (tag'.text ++ t) = occurrences tag.text t + if tag' = tag then 1 else 0 := by
  have hstands : tag.text.isPrefixOf ('@' :: (tag'.word ++ t)) = decide (tag' = tag) := by
    cases tag <;> cases tag' <;> rfl
  rw [text_eq tag', List.cons_append, Text.occurrences_cons, hstands,
    occurrences_append_of_not_mem (sign_not_mem_word tag')]
  simp

/-- `new` has `n` tags more than `old`, and behind the start of the line the same word begins both, so that no tag ends
in one of them only. -/
structure Gains (tag : Tag) (n : Nat) (atStart : Bool) (old new : Text) : Prop where
  word : atStart = false → Text.leadingWord new = Text.leadingWord old
  count : occurrences tag.text new = occurrences tag.text old + n

theorem tally_gains (tag : Tag) : Tally tag.Gains where
  refl _ _ := ⟨fun _ => rfl, rfl⟩
  append {n _} s {old new} h := by
    refine ⟨fun _ => Text.leadingWord_append_congr s (h.word rfl), ?_⟩
    -- A tag that begins in `s` may end behind it, but then in the word that both texts begin with.
    have hcount := h.count
    have hadd := occurrences_append_add tag s (h.word rfl)
    omega
  trans h h' := by
    refine ⟨fun hstart => (h'.word hstart).trans (h.word hstart), ?_⟩
    rw [h'.count, h.count, Nat.add_assoc]

end Tag

/-! ## Matches -/

/-- The match has no tag sign before its gap. Behind the start of the line, its lead parts it from the word before. -/
structure TagMatch.Unsigned (atStart : Bool) (m : TagMatch) : Prop where
  lead : '@' ∉ m.lead
  written : '@' ∉ m.written
  apart : atStart = false → ∃ c, m.lead = [c] ∧ isWordChar c = false

namespace TagReader

variable {atStart : Bool} {s : Text} {m : TagMatch}

theorem unsigned_of_afterLead {barred : List Char} {body : Text → Option TagMatch} (hbarred : '@' ∈ barred)
    (hbody : ∀ {s m}, body s = some m → m.lead = []) (h : afterLead barred body atStart s = some m)
    (hwritten : '@' ∉ m.written.map Char.toLower) : m.Unsigned atStart := by
  have hwritten : '@' ∉ m.written := fun hsign => hwritten (List.mem_map.2 ⟨'@', hsign, rfl⟩)
  rcases afterLead_eq_some h with ⟨rfl, hm⟩ | ⟨c, rest, m', -, hc, hcb, -, rfl⟩
  · exact ⟨by simp [hbody hm], hwritten, fun hstart => by cases hstart⟩
  · refine ⟨fun hsign => hcb ?_, hwritten, fun _ => ⟨c, rfl, hc⟩⟩
    rwa [← List.mem_singleton.1 hsign]

theorem legacyFile_unsigned (h : legacyFile atStart s = some m) : m.Unsigned atStart :=
  unsigned_of_afterLead List.mem_cons_self (fun hm => (fileAt_eq_some hm).1) (legacyFile_eq ▸ h)
    (by rw [legacyFile_written h]; decide)

theorem legacyAuthor_unsigned (h : legacyAuthor atStart s = some m) : m.Unsigned atStart :=
  unsigned_of_afterLead List.mem_cons_self (fun hm => (authorAt_eq_some hm).1) (legacyAuthor_eq ▸ h)
    (by rw [legacyAuthor_written h]; decide)

theorem legacyDate_unsigned (h : legacyDate atStart s = some m) : m.Unsigned atStart := by
  refine unsigned_of_afterLead List.mem_cons_self (fun hm => (dateAt_eq_some hm).1) (legacyDate_eq ▸ h) ?_
  have hwords : ∀ word ∈ dateWords, '@' ∉ word := by decide
  exact hwords _ (legacyDate_written h).2

end TagReader

namespace Tag.Gains

variable {atStart : Bool} {m : TagMatch} {gap : Text}

/-- A legacy word that is renewed makes its tag, and no other. -/
theorem renewed (tag : Tag) (hm : m.Spelled) (hword : m.Unsigned atStart) (hgap : gap = m.gap ∨ gap = [' '])
    (t : Text) : tag.Gains (if m.tag = tag then 1 else 0) atStart (m.source ++ t) (m.renewed gap ++ t) := by
  have hold : '@' ∉ m.lead ++ m.written ++ m.gap := by
    simp [hword.lead, hword.written, sign_not_mem_blanks hm.gap]
  have hnew : '@' ∉ gap := sign_not_mem_blanks (Retagged.isBlank_of_gap hm hgap)
  have hsource : m.source ++ t = (m.lead ++ m.written ++ m.gap) ++ (m.value ++ t) := by simp [TagMatch.source]
  have hrenewed : m.renewed gap ++ t = m.lead ++ (m.tag.text ++ (gap ++ (m.value ++ t))) := by
    simp [TagMatch.renewed]
  constructor
  · -- Both begin with the lead, which is no part of a word.
    intro hstart
    obtain ⟨c, hlead, hc⟩ := hword.apart hstart
    rw [hsource, hrenewed, hlead, List.append_assoc, List.append_assoc, List.singleton_append, List.singleton_append,
      Text.leadingWord_cons_of_not hc, Text.leadingWord_cons_of_not hc]
  · rw [hsource, hrenewed, occurrences_append_of_not_mem hold, occurrences_append_of_not_mem hword.lead,
      occurrences_text_append, occurrences_append_of_not_mem hnew]

/-- A tag that loses its colon stays a tag. -/
theorem dropColon (tag : Tag) {s : Text} (h : TagReader.coloned atStart s = some m) (hgap : gap = m.gap ∨ gap = [' '])
    (t : Text) : tag.Gains 0 atStart (m.source ++ t) (m.renewed gap ++ t) := by
  obtain ⟨blanks, hblanks, hlead, hwritten, -, hvalue, -⟩ := TagReader.coloned_eq_some h
  have hm : m.Spelled := (TagReader.coloned_sound h).2
  have hold : '@' ∉ blanks ++ ':' :: m.gap := by simp [sign_not_mem_blanks hblanks, sign_not_mem_blanks hm.gap]
  have hnew : '@' ∉ gap := sign_not_mem_blanks (Retagged.isBlank_of_gap hm hgap)
  have hsource : m.source ++ t = m.tag.text ++ ((blanks ++ ':' :: m.gap) ++ t) := by
    simp [TagMatch.source, hlead, hwritten, hvalue]
  have hrenewed : m.renewed gap ++ t = m.tag.text ++ (gap ++ t) := by simp [TagMatch.renewed, hlead, hvalue]
  rw [hsource, hrenewed]
  constructor
  · intro _
    rw [text_eq, List.cons_append, List.cons_append, Text.leadingWord_cons_of_not isWordChar_sign,
      Text.leadingWord_cons_of_not isWordChar_sign]
  · rw [occurrences_text_append, occurrences_text_append, occurrences_append_of_not_mem hold,
      occurrences_append_of_not_mem hnew, Nat.add_zero]

end Tag.Gains

/-! ## Passes -/

namespace Renewal

variable (tag : Tag) (fileName line : Text)

/-- What the author pass is given. -/
def beforeAuthor (fileName line : Text) : Text := dropColons (renewFile fileName line)

/-- What the date pass is given. -/
def beforeDate (fileName line : Text) : Text := renewAuthor (beforeAuthor fileName line)

/-- The dates that the date pass renews: the first one, unless the line has a date tag. -/
def renewedDates (line : Text) : List TagMatch :=
  if Text.occursIn Tag.date.text line then [] else (TagReader.legacyDate.hits line).take 1

theorem gains_renewFile : tag.Gains ((TagReader.legacyFile.hits line).countP fun m =>
    decide (tag = .file) && decide (fileNameOf m.value = fileName)) true line (renewFile fileName line) := by
  refine tag.tally_gains.replaceAll TagReader.legacyFile_sound (fun {atStart s m} hread t => ?_) line
  by_cases hname : fileNameOf m.value = fileName
  · have hgain := Tag.Gains.renewed tag (TagReader.legacyFile_sound hread).2 (TagReader.legacyFile_unsigned hread)
      (Retagged.orSpace_eq_or m.gap) t
    simpa [hname, TagReader.legacyFile_tag hread, eq_comm] using hgain
  · simpa [hname] using tag.tally_gains.refl atStart (m.source ++ t)

theorem gains_dropColons : tag.Gains 0 true line (dropColons line) := by
  have hgains : tag.Gains ((TagReader.coloned.hits line).countP fun _ => false) true line (dropColons line) := by
    refine tag.tally_gains.replaceAll TagReader.coloned_sound (fun {_ _ m} hread t => ?_) line
    exact Tag.Gains.dropColon tag hread (Retagged.colonedGap_eq_or m) t
  simpa using hgains

theorem gains_renewAuthor : tag.Gains ((TagReader.legacyAuthor.hits line).countP fun _ => decide (tag = .author)) true
    line (renewAuthor line) := by
  refine tag.tally_gains.replaceAll TagReader.legacyAuthor_sound (fun {atStart s m} hread t => ?_) line
  have hgain := Tag.Gains.renewed tag (TagReader.legacyAuthor_sound hread).2
    (TagReader.legacyAuthor_unsigned hread) (Retagged.orSpace_eq_or m.gap) t
  simpa [TagReader.legacyAuthor_tag hread, eq_comm] using hgain

theorem gains_renewDate : tag.Gains ((renewedDates line).countP fun _ => decide (tag = .date)) true line
    (renewDate line) := by
  unfold renewedDates renewDate
  split
  · exact tag.tally_gains.refl true line
  · refine tag.tally_gains.replaceFirst TagReader.legacyDate_sound (fun {atStart s m} hread t => ?_) line
    have hgain := Tag.Gains.renewed tag (TagReader.legacyDate_sound hread).2
      (TagReader.legacyDate_unsigned hread) (.inr rfl) t
    simpa [(TagReader.legacyDate_written hread).1, eq_comm] using hgain

theorem count_renewFile : line.count ':' = (renewFile fileName line).count ':' +
    (TagReader.legacyFile.hits line).countP fun m => decide (fileNameOf m.value = fileName) := by
  refine tally_colons.replaceAll TagReader.legacyFile_sound (fun {atStart s m} hread t => ?_) line
  by_cases hname : fileNameOf m.value = fileName
  · simpa [hname] using (TagReader.legacyFile_sound hread).2.count_append (Retagged.orSpace_eq_or m.gap) t
  · simp [hname]

theorem count_dropColons : line.count ':' = (dropColons line).count ':' + (TagReader.coloned.hits line).length :=
  TagReader.count_replaceAll TagReader.coloned_sound Retagged.colonedGap_eq_or line

theorem count_renewAuthor :
    line.count ':' = (renewAuthor line).count ':' + (TagReader.legacyAuthor.hits line).length :=
  TagReader.count_replaceAll TagReader.legacyAuthor_sound (fun m => Retagged.orSpace_eq_or m.gap) line

theorem count_renewDate : line.count ':' = (renewDate line).count ':' + (renewedDates line).length := by
  unfold renewedDates renewDate
  split
  · rfl
  · have hcount : line.count ':' = (TagReader.legacyDate.replaceFirst (fun m => m.renewed [' ']) line).count ':' +
        ((TagReader.legacyDate.hits line).take 1).countP fun _ => true :=
      tally_colons.replaceFirst TagReader.legacyDate_sound
        (fun {atStart s m} hread t => (TagReader.legacyDate_sound hread).2.count_append (.inr rfl) t) line
    simpa using hcount

/-! ## All passes -/

/-- What the date pass is given holds as many tags as the line, up to those of the file and author passes. -/
theorem gains_beforeDate : tag.Gains (((TagReader.legacyFile.hits line).countP fun m =>
      decide (tag = .file) && decide (fileNameOf m.value = fileName)) +
    (TagReader.legacyAuthor.hits (beforeAuthor fileName line)).countP fun _ => decide (tag = .author)) true line
    (beforeDate fileName line) :=
  tag.tally_gains.trans (tag.tally_gains.trans (gains_renewFile tag fileName line) (gains_dropColons tag _))
    (gains_renewAuthor tag _)

theorem gains_ofLine : tag.Gains (((TagReader.legacyFile.hits line).countP fun m =>
      decide (tag = .file) && decide (fileNameOf m.value = fileName)) +
    ((TagReader.legacyAuthor.hits (beforeAuthor fileName line)).countP fun _ => decide (tag = .author)) +
    (renewedDates (beforeDate fileName line)).countP fun _ => decide (tag = .date)) true line
    (ofLine fileName line).text :=
  tag.tally_gains.trans (gains_beforeDate tag fileName line) (gains_renewDate tag _)

theorem length_renewedDates_le : (renewedDates line).length ≤ 1 := by
  unfold renewedDates
  split
  · exact Nat.zero_le 1
  · exact List.length_take_le 1 _

/-- The passes before the date pass make no date tag and lose none, so it is the line that decides about the date. -/
theorem occursIn_of_renewedDates (h : renewedDates (beforeDate fileName line) ≠ []) :
    Text.occursIn Tag.date.text line = false := by
  have hbefore : Text.occursIn Tag.date.text (beforeDate fileName line) = false := by
    rw [← Bool.not_eq_true]
    intro hdate
    exact h (if_pos hdate)
  have hcount := (gains_beforeDate .date fileName line).count
  rw [Text.occurrences_eq_zero_iff.2 hbefore] at hcount
  exact Text.occurrences_eq_zero_iff.1 (by omega)

/-- The wrong name is that of the first legacy file tag that names another file. -/
theorem wrongNameOf_eq_some_iff {name : Text} : wrongNameOf fileName line = some name ↔
    ∃ front m rest, TagReader.legacyFile.hits line = front ++ m :: rest ∧
      (∀ m' ∈ front, fileNameOf m'.value = fileName) ∧ fileNameOf m.value ≠ fileName ∧ m.value = name := by
  simp only [wrongNameOf, Option.map_eq_some_iff, List.find?_eq_some_iff_append, decide_eq_true_eq]
  constructor
  · rintro ⟨m, ⟨hname, front, rest, hhits, hfront⟩, rfl⟩
    exact ⟨front, m, rest, hhits, by simpa using hfront, hname, rfl⟩
  · rintro ⟨front, m, rest, hhits, hfront, hname, rfl⟩
    exact ⟨m, ⟨hname, front, rest, hhits, by simpa using hfront⟩, rfl⟩

/-- How the numbers of tags and colons change, and what is reported. -/
structure Counted (fileName line : Text) : Prop where
  /-- Each legacy file tag that names this file makes a tag, and no other does. -/
  files : occurrences Tag.file.text (ofLine fileName line).text = occurrences Tag.file.text line +
    (TagReader.legacyFile.hits line).countP fun m => fileNameOf m.value = fileName
  /-- A name is reported when a legacy file tag names another file. -/
  isSome_wrongName : (ofLine fileName line).wrongName.isSome = true ↔
    ∃ m ∈ TagReader.legacyFile.hits line, fileNameOf m.value ≠ fileName
  /-- The name that is reported is the first one. -/
  wrongName : ∀ name, (ofLine fileName line).wrongName = some name ↔
    ∃ front m rest, TagReader.legacyFile.hits line = front ++ m :: rest ∧
      (∀ m' ∈ front, fileNameOf m'.value = fileName) ∧ fileNameOf m.value ≠ fileName ∧ m.value = name
  /-- Each match of the author pass makes a tag. -/
  authors : occurrences Tag.author.text (ofLine fileName line).text = occurrences Tag.author.text line +
    (TagReader.legacyAuthor.hits (beforeAuthor fileName line)).length
  /-- Each renewed date makes a tag. -/
  dates : occurrences Tag.date.text (ofLine fileName line).text = occurrences Tag.date.text line +
    (renewedDates (beforeDate fileName line)).length
  /-- There is one such date at most, and none in a line with a date tag. -/
  dates_le : (renewedDates (beforeDate fileName line)).length ≤ 1 ∧
    (renewedDates (beforeDate fileName line) ≠ [] → Text.occursIn Tag.date.text line = false)
  /-- A colon goes with everything that is renewed. -/
  colons : line.count ':' = (ofLine fileName line).text.count ':' +
    (((TagReader.legacyFile.hits line).countP fun m => fileNameOf m.value = fileName) +
      (TagReader.coloned.hits (renewFile fileName line)).length +
      (TagReader.legacyAuthor.hits (beforeAuthor fileName line)).length +
      (renewedDates (beforeDate fileName line)).length)

/-- **No tag is invented:** the tags that come to a line and the colons that go are those of what the passes renew. -/
theorem counted : Counted fileName line where
  files := by simpa using (gains_ofLine .file fileName line).count
  isSome_wrongName := by simp [ofLine, wrongNameOf]
  wrongName _ := wrongNameOf_eq_some_iff fileName line
  authors := by simpa using (gains_ofLine .author fileName line).count
  dates := by simpa using (gains_ofLine .date fileName line).count
  dates_le := ⟨length_renewedDates_le _, occursIn_of_renewedDates fileName line⟩
  colons := by
    have hfiles := count_renewFile fileName line
    have hcolons := count_dropColons (renewFile fileName line)
    have hauthors := count_renewAuthor (beforeAuthor fileName line)
    have hdates := count_renewDate (beforeDate fileName line)
    rw [← beforeAuthor] at hcolons
    rw [← beforeDate] at hauthors
    have hline : (ofLine fileName line).text = renewDate (beforeDate fileName line) := rfl
    rw [hline]
    omega

/-- Of two names the one of this file is renewed, and the other is reported. -/
example : ofLine "a.c".toList "File: b.c File: a.c".toList = ⟨"File: b.c @file a.c".toList, some "b.c".toList⟩ := by
  decide +kernel

end Renewal
end DocLint
