import DocLint.Proofs.Text
import DocLint.FileHeader.Renewal

/-!
# What the tag readers find

* A match splits the text it is found in: `s = m.source ++ m.after` (`TagReader.Sound`).
* The spelling of a match that a pass may renew begins with a letter or `@`, ends with its only colon, and blanks
  follow (`TagMatch.Spelled`).

The readers of the four passes are sound (`legacyFile_sound`, `coloned_sound`, `legacyAuthor_sound`,
`legacyDate_sound`), so that a line is gone through match by match (`piecesFrom_found`, `piecesFrom_plain`).
-/

namespace DocLint

/-! ## Spellings -/

/-- The way a tag is written that a pass may renew. -/
def Tag.IsSpelling (written : Text) : Prop :=
  ∃ head body, written = head :: (body ++ [':']) ∧ Text.isTagStart head = true ∧ ':' ∉ body

/-- A word with a colon at its end, in any case, is a spelling. -/
theorem Tag.isSpelling_of_map_toLower {written : Text} (head : Char) (body : Text)
    (h : written.map Char.toLower = head :: (body ++ [':'])) (hhead : Text.isTagStart head = true)
    (hbody : ':' ∉ body) : Tag.IsSpelling written := by
  obtain ⟨c, rest, rfl, hc, hrest⟩ := List.map_eq_cons_iff.1 h
  obtain ⟨b, e, rfl, hb, he⟩ := List.map_eq_append_iff.1 hrest
  obtain ⟨d, e', rfl, hd, he'⟩ := List.map_eq_cons_iff.1 he
  obtain rfl := List.map_eq_nil_iff.1 he'
  refine ⟨c, b, by rw [Text.toLower_eq_colon hd], Text.isTagStart_of_toLower (hc ▸ hhead), fun hmem => hbody ?_⟩
  rw [← hb]
  exact List.mem_map.2 ⟨':', hmem, rfl⟩

/-- The parts of a match are as a pass needs them that may renew it. -/
structure TagMatch.Spelled (m : TagMatch) : Prop where
  lead_length : m.lead.length ≤ 1
  written : Tag.IsSpelling m.written
  gap : ∀ c ∈ m.gap, Text.isBlank c = true

theorem TagMatch.Spelled.source_ne_nil {m : TagMatch} (h : m.Spelled) : m.source ≠ [] := by
  obtain ⟨head, body, hw, -⟩ := h.written
  simp [TagMatch.source, hw]

namespace TagReader

/-- The reader finds spellings, and a match with the rest of the line is the text that it looked at. -/
def Sound (reader : TagReader) : Prop :=
  ∀ ⦃atStart : Bool⦄ ⦃s : Text⦄ ⦃m : TagMatch⦄, reader atStart s = some m → s = m.source ++ m.after ∧ m.Spelled

section Lead

/-- A match of `afterLead` is one of its body, at the start or behind a character that may lead it. -/
theorem afterLead_eq_some {barred : List Char} {body : Text → Option TagMatch} {atStart : Bool} {s : Text}
    {m : TagMatch} (h : afterLead barred body atStart s = some m) :
    (atStart = true ∧ body s = some m) ∨
      ∃ c rest m', s = c :: rest ∧ Text.isWordChar c = false ∧ c ∉ barred ∧ body rest = some m' ∧
        m = { m' with lead := [c] } := by
  unfold afterLead at h
  split at h
  · rename_i m' hm
    cases h
    cases atStart with
    | true => exact .inl ⟨rfl, hm⟩
    | false => cases hm
  · cases s with
    | nil => cases h
    | cons c rest =>
      simp only at h
      split at h
      · cases h
      · rename_i hc
        obtain ⟨m', hm', rfl⟩ := Option.map_eq_some_iff.1 h
        simp only [Bool.or_eq_true, not_or, Bool.not_eq_true, List.contains_eq_mem, decide_eq_false_iff_not] at hc
        exact .inr ⟨c, rest, m', rfl, hc.1, hc.2, hm', rfl⟩

/-- A reader behind a lead is sound when its body is, which finds no lead. -/
theorem afterLead_sound {barred : List Char} {body : Text → Option TagMatch}
    (hbody : ∀ {s m}, body s = some m → m.lead = [] ∧ s = m.source ++ m.after ∧ m.Spelled) :
    Sound (afterLead barred body) := by
  intro atStart s m h
  rcases afterLead_eq_some h with ⟨-, hm⟩ | ⟨c, rest, m', rfl, -, -, hm', rfl⟩
  · exact (hbody hm).2
  · obtain ⟨hlead, hs, hm⟩ := hbody hm'
    refine ⟨?_, ⟨by simp, hm.written, hm.gap⟩⟩
    rw [hs]
    simp [TagMatch.source, hlead]

/-- What holds of the matches of the body, whatever stands before them, holds of those behind a lead. -/
theorem afterLead_of_body {barred : List Char} {body : Text → Option TagMatch} {P : TagMatch → Prop}
    (hlead : ∀ m lead, P m → P { m with lead := lead }) (hbody : ∀ {s m}, body s = some m → P m) {atStart : Bool}
    {s : Text} {m : TagMatch} (h : afterLead barred body atStart s = some m) : P m := by
  rcases afterLead_eq_some h with ⟨-, hm⟩ | ⟨c, rest, m', -, -, -, hm', rfl⟩
  · exact hbody hm
  · exact hlead m' [c] (hbody hm')

theorem spelling?_eq_some {word s written rest : Text} (h : spelling? word s = some (written, rest)) :
    s = written ++ rest ∧ written.map Char.toLower = word.map Char.toLower := by
  obtain ⟨rest', h', heq⟩ := Option.map_eq_some_iff.1 h
  cases heq
  exact Text.dropWord?_eq_some h'

end Lead

section Readers

/-- What `legacyFile` reads behind the lead. -/
def fileAt (s : Text) : Option TagMatch :=
  (spelling? "file:".toList s).map fun (written, rest) =>
    let value := Text.trimStart rest
    ⟨[], written, .file, Text.leadingBlanks rest, value.takeWhile (!Text.isBlank ·),
      value.dropWhile (!Text.isBlank ·)⟩

/-- What `legacyAuthor` reads behind the lead. -/
def authorAt (s : Text) : Option TagMatch :=
  match spelling? "author:".toList s with
  | none => none
  | some (written, rest) =>
    match Text.trimStart rest with
    | [] => none
    | c :: after =>
      if Text.isWordChar c then some ⟨[], written, .author, Text.leadingBlanks rest, [c], after⟩ else none

/-- What `legacyDate` reads behind the lead. -/
def dateAt (s : Text) : Option TagMatch :=
  match dateWords.findSome? (spelling? · s) with
  | none => none
  | some (written, rest) =>
    let value := Text.trimStart rest
    if value.isEmpty then none else some ⟨[], written, .date, Text.leadingBlanks rest, value, []⟩

theorem legacyFile_eq : legacyFile = afterLead ['@', '-'] fileAt := rfl

theorem legacyAuthor_eq : legacyAuthor = afterLead ['@', '-'] authorAt := rfl

theorem legacyDate_eq : legacyDate = afterLead ['@'] dateAt := rfl

/-- A match of `fileAt`: the name runs up to the next blank or the end of the line. -/
theorem fileAt_eq_some {s : Text} {m : TagMatch} (h : fileAt s = some m) :
    m.lead = [] ∧ s = m.source ++ m.after ∧ m.Spelled := by
  obtain ⟨⟨written, rest⟩, hs, rfl⟩ := Option.map_eq_some_iff.1 h
  obtain ⟨rfl, hw⟩ := spelling?_eq_some hs
  refine ⟨rfl, ?_, by simp, Tag.isSpelling_of_map_toLower 'f' "ile".toList hw rfl (by decide), fun c hc =>
    Text.isBlank_of_mem_leadingBlanks hc⟩
  simp only [TagMatch.source, List.nil_append, List.append_assoc, List.takeWhile_append_dropWhile]
  rw [Text.leadingBlanks_append_trimStart]

/-- A match of `authorAt`: one word character is taken of the name. -/
theorem authorAt_eq_some {s : Text} {m : TagMatch} (h : authorAt s = some m) :
    m.lead = [] ∧ s = m.source ++ m.after ∧ m.Spelled := by
  unfold authorAt at h
  split at h
  · cases h
  · rename_i written rest hs
    obtain ⟨rfl, hw⟩ := spelling?_eq_some hs
    split at h
    · cases h
    · rename_i c after hafter
      split at h
      · cases h
        refine ⟨rfl, ?_, by simp, Tag.isSpelling_of_map_toLower 'a' "uthor".toList hw rfl (by decide), fun c hc =>
          Text.isBlank_of_mem_leadingBlanks hc⟩
        have : Text.leadingBlanks rest ++ c :: after = rest := hafter ▸ Text.leadingBlanks_append_trimStart rest
        simp [TagMatch.source, this]
      · cases h

/-- The words of a date are spellings, and the value is all of the line behind it. -/
theorem dateAt_eq_some {s : Text} {m : TagMatch} (h : dateAt s = some m) :
    m.lead = [] ∧ s = m.source ++ m.after ∧ m.Spelled := by
  unfold dateAt at h
  split at h
  · cases h
  · rename_i written rest hs
    obtain ⟨word, hword, hs⟩ := List.exists_of_findSome?_eq_some hs
    obtain ⟨rfl, hw⟩ := spelling?_eq_some hs
    simp only at h
    split at h
    · cases h
    · cases h
      refine ⟨rfl, by simp [TagMatch.source, Text.leadingBlanks_append_trimStart], by simp, ?_, fun c hc =>
        Text.isBlank_of_mem_leadingBlanks hc⟩
      simp only [dateWords, List.mem_cons, List.not_mem_nil, or_false] at hword
      rcases hword with rfl | rfl | rfl
      · exact Tag.isSpelling_of_map_toLower 'c' "reation date".toList hw rfl (by decide)
      · exact Tag.isSpelling_of_map_toLower 'd' "ate".toList hw rfl (by decide)
      · exact Tag.isSpelling_of_map_toLower 'c' "reated on".toList hw rfl (by decide)

/-! Which words the legacy readers look for, and which tags they find. -/

theorem legacyFile_written {atStart : Bool} {s : Text} {m : TagMatch} (h : legacyFile atStart s = some m) :
    m.written.map Char.toLower = "file:".toList := by
  refine afterLead_of_body (P := fun m => m.written.map Char.toLower = "file:".toList) (fun _ _ h => h) (fun hm => ?_)
    (legacyFile_eq ▸ h)
  obtain ⟨⟨written, rest⟩, hs, rfl⟩ := Option.map_eq_some_iff.1 hm
  exact (spelling?_eq_some hs).2

theorem legacyFile_tag {atStart : Bool} {s : Text} {m : TagMatch} (h : legacyFile atStart s = some m) :
    m.tag = .file := by
  refine afterLead_of_body (P := fun m => m.tag = .file) (fun _ _ h => h) (fun hm => ?_) (legacyFile_eq ▸ h)
  obtain ⟨⟨written, rest⟩, -, rfl⟩ := Option.map_eq_some_iff.1 hm
  rfl

theorem legacyAuthor_written {atStart : Bool} {s : Text} {m : TagMatch} (h : legacyAuthor atStart s = some m) :
    m.written.map Char.toLower = "author:".toList := by
  refine afterLead_of_body (P := fun m => m.written.map Char.toLower = "author:".toList) (fun _ _ h => h)
    (fun {s m} hm => ?_) (legacyAuthor_eq ▸ h)
  unfold authorAt at hm
  split at hm
  · cases hm
  · rename_i written rest hs
    split at hm
    · cases hm
    · split at hm
      · cases hm
        exact (spelling?_eq_some hs).2
      · cases hm

theorem legacyAuthor_tag {atStart : Bool} {s : Text} {m : TagMatch} (h : legacyAuthor atStart s = some m) :
    m.tag = .author := by
  refine afterLead_of_body (P := fun m => m.tag = .author) (fun _ _ h => h) (fun {s m} hm => ?_) (legacyAuthor_eq ▸ h)
  unfold authorAt at hm
  split at hm
  · cases hm
  · split at hm
    · cases hm
    · split at hm
      · cases hm
        rfl
      · cases hm

theorem legacyDate_written {atStart : Bool} {s : Text} {m : TagMatch} (h : legacyDate atStart s = some m) :
    m.tag = .date ∧ m.written.map Char.toLower ∈ dateWords := by
  refine afterLead_of_body (P := fun m => m.tag = .date ∧ m.written.map Char.toLower ∈ dateWords) (fun _ _ h => h)
    (fun {s m} hm => ?_) (legacyDate_eq ▸ h)
  unfold dateAt at hm
  split at hm
  · cases hm
  · rename_i written rest hs
    obtain ⟨word, hword, hs⟩ := List.exists_of_findSome?_eq_some hs
    simp only at hm
    split at hm
    · cases hm
    · cases hm
      have hlower : ∀ word ∈ dateWords, word.map Char.toLower = word := by decide
      rw [(spelling?_eq_some hs).2, hlower word hword]
      exact ⟨rfl, hword⟩

theorem legacyFile_sound : Sound legacyFile := afterLead_sound fileAt_eq_some

theorem legacyAuthor_sound : Sound legacyAuthor := afterLead_sound authorAt_eq_some

theorem legacyDate_sound : Sound legacyDate := afterLead_sound dateAt_eq_some

/-- A tag, blanks and a colon. -/
theorem coloned_eq_some {atStart : Bool} {s : Text} {m : TagMatch} (h : coloned atStart s = some m) :
    ∃ blanks, (∀ c ∈ blanks, Text.isBlank c = true) ∧ m.lead = [] ∧ m.written = m.tag.text ++ blanks ++ [':'] ∧
      (∀ c ∈ m.gap, Text.isBlank c = true) ∧ m.value = [] ∧ s = m.source ++ m.after := by
  obtain ⟨tag, -, htag⟩ := List.exists_of_findSome?_eq_some h
  split at htag
  · cases htag
  · rename_i rest hs
    obtain rfl := List.isPrefixOf?_eq_some_iff_append_eq.1 hs
    split at htag
    · rename_i behind hrest
      cases htag
      refine ⟨Text.leadingBlanks rest, fun c hc => Text.isBlank_of_mem_leadingBlanks hc, rfl, rfl,
        fun c hc => Text.isBlank_of_mem_leadingBlanks hc, rfl, ?_⟩
      have : Text.leadingBlanks rest ++ ':' :: behind = rest := hrest ▸ Text.leadingBlanks_append_trimStart rest
      simp [TagMatch.source, Text.leadingBlanks_append_trimStart, this]
    · cases htag

theorem coloned_sound : Sound coloned := by
  intro atStart s m h
  obtain ⟨blanks, hb, hlead, hwritten, hgap, -, hs⟩ := coloned_eq_some h
  refine ⟨hs, by simp [hlead], ?_, hgap⟩
  have hcolon : ':' ∉ blanks := fun hc => absurd (hb _ hc) (by decide)
  rw [hwritten]
  cases m.tag with
  | file => exact ⟨'@', "file".toList ++ blanks, rfl, rfl, by simpa using hcolon⟩
  | author => exact ⟨'@', "author".toList ++ blanks, rfl, rfl, by simpa using hcolon⟩
  | date => exact ⟨'@', "date".toList ++ blanks, rfl, rfl, by simpa using hcolon⟩

end Readers

/-! ## Going through a line -/

section Pieces

variable {reader : TagReader}

/-- Skipped characters belong to no piece. -/
theorem piecesFrom_skip : ∀ {s : Text} (rest : Text), s ≠ [] →
    piecesFrom reader (s.length - 1) false (s.tail ++ rest) = piecesFrom reader 0 false rest
  | [], _, h => absurd rfl h
  | [_], _, _ => rfl
  | _ :: d :: s, rest, _ => by
    have ih := piecesFrom_skip (s := d :: s) rest (by simp)
    simpa [piecesFrom] using ih

/-- A match that has some text is a piece, and the line goes on behind it. -/
theorem piecesFrom_match {atStart : Bool} {m : TagMatch} (h : reader atStart (m.source ++ m.after) = some m)
    (hne : m.source ≠ []) :
    piecesFrom reader 0 atStart (m.source ++ m.after) = .found m :: piecesFrom reader 0 false m.after := by
  obtain ⟨c, rest, hsource⟩ := List.exists_cons_of_ne_nil hne
  have hskip : piecesFrom reader (m.source.length - 1) false (m.source.tail ++ m.after) = _ :=
    piecesFrom_skip m.after hne
  rw [hsource] at h hskip ⊢
  simp only [List.cons_append] at h ⊢
  simp only [piecesFrom, h, hsource]
  rw [← hskip, List.tail_cons]

theorem piecesFrom_found (hr : Sound reader) {atStart : Bool} {s : Text} {m : TagMatch}
    (h : reader atStart s = some m) :
    piecesFrom reader 0 atStart s = .found m :: piecesFrom reader 0 false m.after := by
  obtain ⟨rfl, hm⟩ := hr h
  exact piecesFrom_match h hm.source_ne_nil

/-- A character where no match is found is a piece. -/
theorem piecesFrom_plain {atStart : Bool} {c : Char} {rest : Text} (h : reader atStart (c :: rest) = none) :
    piecesFrom reader 0 atStart (c :: rest) = .plain c :: piecesFrom reader 0 false rest := by
  simp only [piecesFrom, h]

/-- Characters where no match is found are pieces, one after the other. -/
theorem piecesFrom_append {front rest : Text} {atStart : Bool}
    (h : ∀ before c behind, front = before ++ c :: behind → ∀ atStart, reader atStart (c :: (behind ++ rest)) = none) :
    piecesFrom reader 0 atStart (front ++ rest) =
      front.map .plain ++ piecesFrom reader 0 (atStart && front.isEmpty) rest := by
  induction front generalizing atStart with
  | nil => simp
  | cons c front ih =>
    rw [List.cons_append, piecesFrom_plain (h [] c front rfl atStart),
      ih fun before d behind heq => h (c :: before) d behind (congrArg (List.cons c) heq)]
    simp

/-- What the reader finds in a text, it finds when it looks at an end of it. -/
theorem exists_read_of_mem_piecesFrom {m : TagMatch} : ∀ {skip : Nat} {atStart : Bool} {s : Text},
    Piece.found m ∈ piecesFrom reader skip atStart s → ∃ atStart' s', reader atStart' s' = some m
  | _, _, [], h => by simp [piecesFrom] at h
  | _ + 1, _, _ :: _, h => by
    rw [piecesFrom] at h
    exact exists_read_of_mem_piecesFrom h
  | 0, atStart, c :: rest, h => by
    unfold piecesFrom at h
    split at h
    · rename_i m' hm
      rcases List.mem_cons.1 h with heq | h
      · cases heq
        exact ⟨atStart, c :: rest, hm⟩
      · exact exists_read_of_mem_piecesFrom h
    · rcases List.mem_cons.1 h with heq | h
      · cases heq
      · exact exists_read_of_mem_piecesFrom h

/-- The match that a piece is, if any. -/
def Piece.hit? : Piece → Option TagMatch
  | .found m => some m
  | .plain _ => none

/-- What a piece becomes when every match is replaced. -/
def Piece.replaced (replacement : TagMatch → Text) : Piece → Text
  | .found m => replacement m
  | .plain c => [c]

theorem hits_eq (reader : TagReader) (line : Text) :
    reader.hits line = (reader.piecesFrom 0 true line).filterMap Piece.hit? := by
  refine List.filterMap_congr fun piece _ => ?_
  cases piece <;> rfl

theorem mem_hits_iff {line : Text} {m : TagMatch} :
    m ∈ reader.hits line ↔ Piece.found m ∈ reader.piecesFrom 0 true line := by
  rw [hits_eq, List.mem_filterMap]
  constructor
  · rintro ⟨piece, hpiece, hm⟩
    cases piece with
    | plain => cases hm
    | found => cases hm; exact hpiece
  · exact fun h => ⟨_, h, rfl⟩

theorem replaceAll_eq (reader : TagReader) (replacement : TagMatch → Text) (line : Text) :
    reader.replaceAll replacement line = (reader.piecesFrom 0 true line).flatMap (Piece.replaced replacement) := by
  refine List.flatMap_congr fun piece _ => ?_
  cases piece <;> rfl

/-- What holds of the pieces of every line: there is nothing, a match with the pieces behind it, or a character. -/
theorem pieces_induction (hr : Sound reader) {motive : Bool → Text → List Piece → Prop}
    (nil : ∀ atStart, motive atStart [] [])
    (found : ∀ atStart m ps, reader atStart (m.source ++ m.after) = some m → m.Spelled → motive false m.after ps →
      motive atStart (m.source ++ m.after) (.found m :: ps))
    (plain : ∀ atStart c rest ps, motive false rest ps → motive atStart (c :: rest) (.plain c :: ps)) :
    ∀ (atStart : Bool) (s : Text), motive atStart s (piecesFrom reader 0 atStart s)
  | atStart, [] => nil atStart
  | atStart, c :: rest => by
    cases h : reader atStart (c :: rest) with
    | none =>
      rw [piecesFrom_plain h]
      exact plain atStart c rest _ (pieces_induction hr nil found plain false rest)
    | some m =>
      obtain ⟨heq, hm⟩ := hr h
      have hshort : m.after.length < (c :: rest).length := by
        rw [heq, List.length_append]
        have := List.length_pos_iff.2 hm.source_ne_nil
        omega
      rw [piecesFrom_found hr h, heq]
      exact found atStart m _ (heq ▸ h) hm (pieces_induction hr nil found plain false m.after)
termination_by _ s => s.length
decreasing_by
  · exact Nat.lt_succ_self rest.length
  · exact hshort

/-- A match of a line is found somewhere in it. -/
theorem exists_of_mem_hits (hr : Sound reader) {line : Text} {m : TagMatch} (hm : m ∈ reader.hits line) :
    ∃ atStart front, line = front ++ (m.source ++ m.after) ∧ reader atStart (m.source ++ m.after) = some m ∧
      (atStart = true → front = []) := by
  rw [hits_eq] at hm
  have hfound := pieces_induction hr (motive := fun start s ps => m ∈ ps.filterMap Piece.hit? →
    ∃ atStart front, s = front ++ (m.source ++ m.after) ∧ reader atStart (m.source ++ m.after) = some m ∧
      (atStart = true → front = [] ∧ start = true)) (fun _ h => absurd h List.not_mem_nil) ?_ ?_ true line hm
  · obtain ⟨atStart, front, heq, hread, hfront⟩ := hfound
    exact ⟨atStart, front, heq, hread, fun hstart => (hfront hstart).1⟩
  · intro start m' ps hread _ ih h
    rcases List.mem_cons.1 h with rfl | h
    · exact ⟨start, [], rfl, hread, fun hstart => ⟨rfl, hstart⟩⟩
    · obtain ⟨atStart, front, heq, hread', hfront⟩ := ih h
      refine ⟨atStart, m'.source ++ front, ?_, hread', fun hstart => (by cases (hfront hstart).2)⟩
      rw [List.append_assoc, ← heq]
  · intro start c rest ps ih h
    obtain ⟨atStart, front, heq, hread, hfront⟩ := ih h
    exact ⟨atStart, c :: front, congrArg (List.cons c) heq, hread, fun hstart => (by cases (hfront hstart).2)⟩

/-- The matches found in a line are spellings of tags. -/
theorem spelled_of_mem_hits (hr : Sound reader) {line : Text} {m : TagMatch} (hm : m ∈ reader.hits line) :
    m.Spelled := by
  obtain ⟨atStart, front, -, hread, -⟩ := exists_of_mem_hits hr hm
  exact (hr hread).2

end Pieces
end TagReader
end DocLint
