import DocLint.Proofs.FileHeader.Layout
import DocLint.Proofs.Text.Class

/-!
# The file tag of a header

A header names its file when one of its lines is a star and the file tag with the name, be it written `@file` or in the
legacy way (`HeaderReview.IsFileLine`). The passes make `@file` of both and leave the rest of such a line alone
(`Renewal.exists_ofLine_eq`). In the text of the whole header a tag before the line may take the star for a file name, but
nothing behind it (`TagReader.exists_piecesFrom_star`), so the tag of the line is found whatever the other lines are. A
name with a blank in it is never found (`HeaderReview.namesFile_eq_false`). Both are put together in
`HeaderReview.fileTag_accepted`.
-/

namespace DocLint

open Text (isBlank)

/-- No part of a path has a slash, so the name of the file has none. -/
theorem Path.slash_not_mem_headerName (path : Path) : '/' ∉ path.headerName := by
  unfold headerName fileName?
  split
  · rename_i name hname
    split
    · exact List.not_mem_nil
    · have hpart := List.mem_of_find?_eq_some hname
      exact Text.not_mem_of_mem_splitOn (List.mem_reverse.1 hpart)
  · exact List.not_mem_nil

/-- The line is a star and the file tag in one of its two spellings, with the name and nothing else. -/
def HeaderReview.IsFileLine (name line : Text) : Prop :=
  ∃ gap tag gap', (∀ c ∈ gap ++ gap', isBlank c = true) ∧ gap ≠ [] ∧ line = '*' :: (gap ++ (tag ++ (gap' ++ name))) ∧
    ((tag = Tag.file.text ∧ gap' ≠ []) ∨ tag.map Char.toLower = "file:".toList)

/-- A name as a header can have it in a tag. -/
structure Renewal.IsTagName (name : Text) : Prop where
  nonempty : name ≠ []
  blank : ∀ c ∈ name, isBlank c = false
  colon : ':' ∉ name
  slash : '/' ∉ name

namespace Renewal.IsTagName

variable {name : Text} (h : IsTagName name)

include h

theorem isBlank_head? (rest : Text) : ∀ c ∈ (name ++ rest).head?, isBlank c = false := by
  rw [List.head?_append_of_ne_nil _ h.nonempty]
  exact fun c hc => h.blank c (List.mem_of_mem_head? hc)

/-- The name does not end a comment. -/
theorem fileNameOf_eq : fileNameOf name = name := by
  rw [fileNameOf, Text.dropMarker]
  cases hsuffix : "*/".toList.isSuffixOf? name with
  | none => rfl
  | some front =>
    rw [List.isSuffixOf?_eq_some_iff_append_eq] at hsuffix
    exact absurd (by simp [← hsuffix]) h.slash

/-- The name is what stands between the blanks before and behind it. -/
theorem read {gap behind : Text} (hgap : ∀ c ∈ gap, isBlank c = true) (hbehind : ∀ c ∈ behind.head?, isBlank c = true) :
    Text.leadingBlanks (gap ++ (name ++ behind)) = gap ∧
      (Text.trimStart (gap ++ (name ++ behind))).takeWhile (!isBlank ·) = name ∧
      (Text.trimStart (gap ++ (name ++ behind))).dropWhile (!isBlank ·) = behind := by
  obtain ⟨hleading, hstart⟩ := Text.trimStart_append hgap (h.isBlank_head? behind)
  rw [hleading, hstart]
  exact ⟨rfl, Text.span_append (fun c hc => by simpa using h.blank c hc) fun c hc => by simpa using hbehind c hc⟩

end Renewal.IsTagName

/-! ## The readers at a file tag -/

namespace TagReader

open Renewal (IsTagName)

section Reading

variable {name gap written front behind : Text}

/-- A word that begins with a tag start is not found at another character. -/
theorem spelling?_of_not_isTagStart {w c : Char} (hw : Text.isTagStart w = true) (hc : Text.isTagStart c = false)
    (ws rest : Text) : spelling? (w :: ws) (c :: rest) = none := by
  rw [spelling?, Text.dropWord?_of_not_isTagStart hw hc]
  rfl

theorem spelling?_append {word : Text} (h : written.map Char.toLower = word.map Char.toLower) (rest : Text) :
    spelling? word (written ++ rest) = some (written, rest) := by
  have hlength : word.length = written.length := by
    have hmap := congrArg List.length h
    rwa [List.length_map, List.length_map, eq_comm] at hmap
  rw [spelling?, Text.dropWord?_append h, hlength, Option.map_some, List.take_left]

/-- A legacy file tag begins with a tag start, perhaps behind one character. -/
theorem legacyFile_of_not_isTagStart {c : Char} {rest : Text} (hc : Text.isTagStart c = false)
    (hrest : ∀ d ∈ rest.head?, Text.isTagStart d = false) (atStart : Bool) : legacyFile atStart (c :: rest) = none := by
  have hnone : ∀ {d : Char} {s : Text}, Text.isTagStart d = false → fileAt (d :: s) = none := by
    intro d s hd
    rw [fileAt, show "file:".toList = 'f' :: "ile:".toList from rfl, spelling?_of_not_isTagStart rfl hd]
    rfl
  have hnone' : fileAt rest = none := by
    cases rest with
    | nil => rfl
    | cons d rest => exact hnone (hrest d rfl)
  rw [legacyFile_eq]
  cases atStart <;> simp [afterLead, hnone hc, hnone']

/-- A legacy file tag behind a blank, with its name. -/
theorem legacyFile_append (hname : IsTagName name) {c : Char} (hc : isBlank c = true)
    (hwritten : written.map Char.toLower = "file:".toList) (hgap : ∀ c ∈ gap, isBlank c = true)
    (hbehind : ∀ c ∈ behind.head?, isBlank c = true) :
    legacyFile false (c :: (written ++ (gap ++ (name ++ behind)))) = some ⟨[c], written, .file, gap, name, behind⟩ := by
  obtain ⟨hleading, htake, hdrop⟩ := hname.read hgap hbehind
  have hbody : fileAt (written ++ (gap ++ (name ++ behind))) = some ⟨[], written, .file, gap, name, behind⟩ := by
    rw [fileAt, spelling?_append hwritten, Option.map_some]
    simp only [hleading, htake, hdrop]
  have hword : Text.isWordChar c = false := by
    rw [← Bool.not_eq_true]
    intro hword
    rw [Text.isBlank_of_isWordChar hword] at hc
    cases hc
  have hbarred : ['@', '-'].contains c = false := by
    rw [← Bool.not_eq_true, List.contains_iff_mem]
    intro hmem
    have hall : ['@', '-'].all (fun d => !isBlank d) = true := by decide
    have hbar := List.all_eq_true.1 hall c hmem
    rw [hc] at hbar
    cases hbar
  rw [legacyFile_eq]
  simp only [afterLead, Bool.false_eq_true, if_false, hword, hbarred, Bool.or_self, hbody, Option.map_some]

/-- Nothing is found in characters that no tag begins with. -/
theorem piecesFrom_legacyFile {rest : Text} (hfront : ∀ c ∈ front, Text.isTagStart c = false)
    (hrest : ∀ c ∈ rest.head?, Text.isTagStart c = false) (atStart : Bool) :
    legacyFile.piecesFrom 0 atStart (front ++ rest) =
      front.map .plain ++ legacyFile.piecesFrom 0 (atStart && front.isEmpty) rest := by
  refine piecesFrom_append fun before c behind heq atStart => ?_
  have hmem : ∀ d ∈ c :: behind, Text.isTagStart d = false := fun d hd =>
    hfront d (heq ▸ List.mem_append_right before hd)
  obtain ⟨hc, hbehind⟩ := List.forall_mem_cons.1 hmem
  refine legacyFile_of_not_isTagStart hc (fun d hd => ?_) atStart
  cases behind with
  | nil => exact hrest d hd
  | cons e behind => cases hd; exact hbehind _ List.mem_cons_self

/-- What the reader of file tags finds: the tag, blanks and a name without blanks. -/
theorem fileTag_eq_some {atStart : Bool} {s : Text} {m : TagMatch} (h : fileTag atStart s = some m) :
    s = m.source ++ m.after ∧ m.lead = [] ∧ m.written.map Char.toLower = Tag.file.text ∧
      (∀ c ∈ m.gap, isBlank c = true) ∧ ∀ c ∈ m.value, isBlank c = false := by
  unfold fileTag at h
  split at h
  · cases h
  · rename_i written rest hs
    obtain ⟨rfl, hwritten⟩ := spelling?_eq_some hs
    simp only at h
    split at h
    · cases h
    · cases h
      refine ⟨?_, rfl, hwritten, fun c hc => Text.isBlank_of_mem_leadingBlanks hc, fun c hc => ?_⟩
      · simp only [TagMatch.source, List.nil_append, List.append_assoc, List.takeWhile_append_dropWhile]
        rw [Text.leadingBlanks_append_trimStart]
      · simpa using List.mem_takeWhile_imp hc

theorem fileTag_of_not_isTagStart {c : Char} (hc : Text.isTagStart c = false) (rest : Text) (atStart : Bool) :
    fileTag atStart (c :: rest) = none := by
  have htext : Tag.file.text = '@' :: "file".toList := rfl
  rw [fileTag, htext, spelling?_of_not_isTagStart rfl hc]

/-- The file tag with its name. -/
theorem fileTag_append (hname : IsTagName name) (hgap : ∀ c ∈ gap, isBlank c = true) (hne : gap ≠ [])
    (hbehind : ∀ c ∈ behind.head?, isBlank c = true) (atStart : Bool) :
    fileTag atStart (Tag.file.text ++ (gap ++ (name ++ behind))) =
      some ⟨[], Tag.file.text, .file, gap, name, behind⟩ := by
  obtain ⟨hleading, htake, hdrop⟩ := hname.read hgap hbehind
  rw [fileTag, spelling?_append rfl]
  simp only [hleading, htake, hdrop]
  simp [hne, hname.nonempty]

/-- The name of a match holds no blank, so of what stands behind a star in it, it has nothing when that is blank. -/
theorem after_of_star {m : TagMatch} {atStart : Bool} {s rest taken : Text} (hread : fileTag atStart s = some m)
    (hsource : m.source = front ++ '*' :: taken) (hrest : rest = taken ++ m.after)
    (hblank : ∀ c ∈ rest.head?, isBlank c = true) : m.after = rest := by
  obtain ⟨-, hlead, hwritten, hgap, hvalue⟩ := fileTag_eq_some hread
  have hstar : '*' ∉ m.written ++ m.gap := by
    intro hmem
    rcases List.mem_append.1 hmem with hmem | hmem
    · have hlower : '*' ∈ m.written.map Char.toLower := List.mem_map.2 ⟨'*', hmem, rfl⟩
      rw [hwritten] at hlower
      revert hlower
      decide
    · exact absurd (hgap _ hmem) (by decide)
  rw [TagMatch.source, hlead, List.nil_append] at hsource
  have htaken : ∀ c ∈ taken, isBlank c = false := by
    intro c hc
    refine hvalue c ?_
    rcases List.append_eq_append_iff.1 hsource with ⟨u, -, hvalue'⟩ | ⟨u, hwritten', hvalue'⟩
    · rw [hvalue']
      exact List.mem_append_right _ (List.mem_cons_of_mem _ hc)
    · cases u with
      | nil =>
        rw [List.nil_append] at hvalue'
        rw [← hvalue']
        exact List.mem_cons_of_mem _ hc
      | cons d u =>
        cases hvalue'
        exact absurd (hwritten' ▸ by simp) hstar
  cases taken with
  | nil => rw [hrest, List.nil_append]
  | cons c taken =>
    have hc := hblank c (by rw [hrest]; rfl)
    rw [htaken c List.mem_cons_self] at hc
    cases hc

/-- **A tag before a star takes nothing behind the star:** the star may be its name, which ends at the next blank. -/
theorem exists_piecesFrom_star {rest : Text} (hrest : ∀ c ∈ rest.head?, isBlank c = true) :
    ∀ (atStart : Bool) (front : Text), ∃ ps,
      fileTag.piecesFrom 0 atStart (front ++ '*' :: rest) = ps ++ fileTag.piecesFrom 0 false rest
  | atStart, [] => ⟨[.plain '*'], piecesFrom_plain (fileTag_of_not_isTagStart (by decide) rest atStart)⟩
  | atStart, c :: front => by
    cases hread : fileTag atStart (c :: (front ++ '*' :: rest)) with
    | none =>
      obtain ⟨ps, hps⟩ := exists_piecesFrom_star hrest false front
      exact ⟨.plain c :: ps, by rw [List.cons_append, piecesFrom_plain hread, hps, List.cons_append]⟩
    | some m =>
      obtain ⟨heq, -, hwritten, -⟩ := fileTag_eq_some hread
      have hne : m.source ≠ [] := by
        have hwritten : m.written ≠ [] := by
          intro hnil
          rw [hnil] at hwritten
          cases hwritten
        simp [TagMatch.source, hwritten]
      have hpieces := piecesFrom_match (heq ▸ hread) hne
      rw [← heq] at hpieces
      -- Either the match ends in `front`, or the star is in its name.
      have hcases : (∃ u, c :: front = m.source ++ u ∧ m.after = u ++ '*' :: rest) ∨ m.after = rest := by
        rcases List.append_eq_append_iff.1 (show (c :: front) ++ '*' :: rest = m.source ++ m.after from heq) with
          ⟨u, hsource, hstar⟩ | ⟨u, hfront, hafter⟩
        · cases u with
          | nil => exact .inl ⟨[], by rw [hsource]; simp, hstar.symm⟩
          | cons d u =>
            cases hstar
            exact .inr (after_of_star hread hsource rfl hrest)
        · exact .inl ⟨u, hfront, hafter⟩
      rcases hcases with ⟨u, hfront, hafter⟩ | hafter
      · have hshort : u.length < front.length + 1 := by
          have hpos := List.length_pos_iff.2 hne
          rw [← List.length_cons, hfront, List.length_append]
          omega
        obtain ⟨ps, hps⟩ := exists_piecesFrom_star hrest false u
        exact ⟨.found m :: ps, by rw [List.cons_append, hpieces, hafter, hps, List.cons_append]⟩
      · exact ⟨[.found m], by rw [List.cons_append, hpieces, hafter, List.singleton_append]⟩
termination_by _ front => front.length

/-- The file tag behind a star is found with its name, whatever stands before and behind. -/
theorem exists_hit_fileTag (hname : IsTagName name) {gap' : Text} (hgap : ∀ c ∈ gap, isBlank c = true) (hne : gap ≠ [])
    (hgap' : ∀ c ∈ gap', isBlank c = true) (hne' : gap' ≠ []) (hbehind : ∀ c ∈ behind.head?, isBlank c = true)
    (front : Text) :
    ∃ m ∈ fileTag.hits (front ++ '*' :: (gap ++ (Tag.file.text ++ (gap' ++ (name ++ behind))))), m.value = name := by
  have hrest : ∀ c ∈ (gap ++ (Tag.file.text ++ (gap' ++ (name ++ behind)))).head?, isBlank c = true := by
    rw [List.head?_append_of_ne_nil _ hne]
    exact fun c hc => hgap c (List.mem_of_mem_head? hc)
  obtain ⟨ps, hps⟩ := exists_piecesFrom_star hrest true front
  have hplain : fileTag.piecesFrom 0 false (gap ++ (Tag.file.text ++ (gap' ++ (name ++ behind)))) = _ :=
    piecesFrom_append fun before c after heq atStart =>
      fileTag_of_not_isTagStart (Text.isTagStart_of_isBlank (hgap c (by simp [heq]))) _ atStart
  have htag : fileTag false ((⟨[], Tag.file.text, .file, gap', name, behind⟩ : TagMatch).source ++ behind) =
      some ⟨[], Tag.file.text, .file, gap', name, behind⟩ := by
    simpa [TagMatch.source] using fileTag_append hname hgap' hne' hbehind false
  have hfound := piecesFrom_match htag (by simp [TagMatch.source, hname.nonempty])
  refine ⟨⟨[], Tag.file.text, .file, gap', name, behind⟩, mem_hits_iff.2 ?_, rfl⟩
  have hsource : Tag.file.text ++ (gap' ++ (name ++ behind)) =
      (⟨[], Tag.file.text, .file, gap', name, behind⟩ : TagMatch).source ++ behind := by simp [TagMatch.source]
  rw [hps, hplain, hsource, Bool.false_and, hfound]
  simp

end Reading
end TagReader

/-! ## The line after its renewal -/

namespace Renewal

variable {name line : Text}

/-- A line without colons is left alone. -/
theorem ofLine_eq_of_colon_not_mem (fileName : Text) (h : ':' ∉ line) : (ofLine fileName line).text = line := by
  rcases ofLine_eq_or_count_lt fileName line with heq | hlt
  · exact heq
  · rw [List.count_eq_zero.2 h] at hlt
    cases hlt

/-- Once the file pass has taken all colons, the other passes have nothing to do. -/
theorem ofLine_eq_renewFile {fileName : Text} (h : ':' ∉ renewFile fileName line) :
    (ofLine fileName line).text = renewFile fileName line := by
  have hzero := List.count_eq_zero.2 h
  have hcolons := (Retagged.dropColons (renewFile fileName line)).eq_of_count_le (by omega)
  have hauthor := (Retagged.renewAuthor (renewFile fileName line)).eq_of_count_le (by omega)
  have hdate := (Retagged.renewDate (renewFile fileName line)).eq_of_count_le (by omega)
  simp only [ofLine, hcolons, hauthor, hdate]

theorem flatMap_plain (replacement : TagMatch → Text) (s : Text) :
    (s.map TagReader.Piece.plain).flatMap (TagReader.Piece.replaced replacement) = s := by
  rw [List.flatMap_map]
  exact List.flatMap_singleton' s

/-- The file pass makes the tag of the legacy spelling, and leaves the rest of the line alone. -/
theorem renewFile_legacy (hname : IsTagName name) {before gap written gap' behind : Text}
    (hbefore : ∀ c ∈ before, isBlank c = true) (hgap : ∀ c ∈ gap, isBlank c = true) (hne : gap ≠ [])
    (hwritten : written.map Char.toLower = "file:".toList) (hgap' : ∀ c ∈ gap', isBlank c = true)
    (hbehind : ∀ c ∈ behind, isBlank c = true) :
    renewFile name (before ++ '*' :: (gap ++ (written ++ (gap' ++ (name ++ behind))))) =
      before ++ '*' :: (gap ++ (Tag.file.text ++ (orSpace gap' ++ (name ++ behind)))) := by
  obtain ⟨front, c, rfl⟩ := (List.eq_nil_or_concat' gap).resolve_left hne
  obtain ⟨hfront, hc⟩ := List.forall_mem_append.1 hgap
  have hc := hc c List.mem_cons_self
  have hsplit : ∀ rest, before ++ '*' :: (front ++ [c] ++ rest) = (before ++ '*' :: front) ++ c :: rest := by simp
  have hquiet : ∀ d ∈ before ++ '*' :: front, Text.isTagStart d = false := by
    refine List.forall_mem_append.2 ⟨fun d hd => Text.isTagStart_of_isBlank (hbefore d hd), ?_⟩
    exact List.forall_mem_cons.2 ⟨by decide, fun d hd => Text.isTagStart_of_isBlank (hfront d hd)⟩
  have hfound := TagReader.piecesFrom_found TagReader.legacyFile_sound
    (TagReader.legacyFile_append hname hc hwritten hgap' fun d hd => hbehind d (List.mem_of_mem_head? hd))
  have hafter : TagReader.legacyFile.piecesFrom 0 false (behind ++ []) = _ :=
    TagReader.piecesFrom_legacyFile (fun d hd => Text.isTagStart_of_isBlank (hbehind d hd)) (by simp) false
  rw [List.append_nil] at hafter
  rw [renewFile, TagReader.replaceAll_eq, hsplit, hsplit, TagReader.piecesFrom_legacyFile hquiet
    (fun d hd => by cases hd; exact Text.isTagStart_of_isBlank hc), List.flatMap_append, flatMap_plain]
  have hstart : (true && (before ++ '*' :: front).isEmpty) = false := by simp
  rw [hstart, hfound, List.flatMap_cons, hafter, List.flatMap_append, flatMap_plain]
  simp [TagReader.Piece.replaced, hname.fileNameOf_eq, TagMatch.renewed, TagReader.piecesFrom]

theorem orSpace_ne_nil (gap : Text) : orSpace gap ≠ [] := by
  unfold orSpace
  split
  · exact List.cons_ne_nil _ _
  · rename_i hgap
    simpa using hgap

theorem isBlank_of_mem_orSpace {gap : Text} (hgap : ∀ c ∈ gap, isBlank c = true) :
    ∀ c ∈ orSpace gap, isBlank c = true := by
  unfold orSpace
  split
  · simp [isBlank]
  · exact hgap

/-- **Both spellings become the tag:** the renewed line has it behind a star and blanks, and the name behind it. -/
theorem exists_ofLine_eq (hname : IsTagName name) (hline : HeaderReview.IsFileLine name (Text.trim line)) :
    ∃ before gap gap' behind, (∀ c ∈ gap ++ gap' ++ behind, isBlank c = true) ∧ gap ≠ [] ∧ gap' ≠ [] ∧
      (ofLine name line).text = before ++ '*' :: (gap ++ (Tag.file.text ++ (gap' ++ (name ++ behind)))) := by
  obtain ⟨gap, tag, gap', hblank, hne, htrim, htag⟩ := hline
  obtain ⟨before, behind, hblank', hsplit⟩ := Text.exists_trim_append line
  obtain ⟨hgap, hgap'⟩ := List.forall_mem_append.1 hblank
  obtain ⟨hbefore, hbehind⟩ := List.forall_mem_append.1 hblank'
  have hno : ∀ {s : Text}, (∀ c ∈ s, isBlank c = true) → ':' ∉ s := fun h hc => absurd (h ':' hc) (by decide)
  have hcolon : ∀ {gap' : Text}, (∀ c ∈ gap', isBlank c = true) →
      ':' ∉ before ++ '*' :: (gap ++ (Tag.file.text ++ (gap' ++ (name ++ behind)))) := by
    intro gap' hgap'
    have htext : ':' ∉ Tag.file.text := by decide
    simp [hno hbefore, hno hgap, hno hgap', hno hbehind, htext, hname.colon]
  have hline : line = before ++ '*' :: (gap ++ (tag ++ (gap' ++ (name ++ behind)))) := by
    rw [hsplit, htrim]
    simp
  have hall : ∀ {gap' : Text}, (∀ c ∈ gap', isBlank c = true) → ∀ c ∈ gap ++ gap' ++ behind, isBlank c = true :=
    fun hgap' => List.forall_mem_append.2 ⟨List.forall_mem_append.2 ⟨hgap, hgap'⟩, hbehind⟩
  rcases htag with ⟨rfl, hne'⟩ | hwritten
  · refine ⟨before, gap, gap', behind, hall hgap', hne, hne', ?_⟩
    have hnone := hcolon hgap'
    rw [← hline] at hnone
    rw [ofLine_eq_of_colon_not_mem name hnone, hline]
  · have hspace := isBlank_of_mem_orSpace hgap'
    have hrenewed := renewFile_legacy hname hbefore hgap hne hwritten hgap' hbehind
    rw [← hline] at hrenewed
    refine ⟨before, gap, orSpace gap', behind, hall hspace, hne, orSpace_ne_nil gap', ?_⟩
    rw [ofLine_eq_renewFile (hrenewed ▸ hcolon hspace), hrenewed]

end Renewal

/-! ## The header -/

namespace HeaderReview

open Renewal (IsTagName)

variable {content name : Text} {above inside below : List Line}

theorem sameIgnoringCase_self (name : Text) : Text.sameIgnoringCase name name = true := beq_self_eq_true _

/-- A header with a line that names the file names it. -/
theorem namesFile_of_isFileLine (hname : IsTagName name) {line : Line} (hl : line ∈ inside)
    (hline : IsFileLine name (Text.trim line.text)) : namesFile name (renewedText name inside) = true := by
  obtain ⟨before, gap, gap', behind, hblank, hne, hne', hrenewed⟩ := Renewal.exists_ofLine_eq hname hline
  obtain ⟨front, back, hspaced, hback⟩ := Text.exists_spaced_eq
    (List.mem_map_of_mem (f := fun line => (line.renew name).text) hl)
  simp only [List.forall_mem_append] at hblank
  obtain ⟨⟨hgap, hgap'⟩, hbehind⟩ := hblank
  have hrest : ∀ c ∈ (behind ++ back).head?, isBlank c = true := by
    intro c hc
    cases behind with
    | nil => rw [hback c hc]; rfl
    | cons d behind => cases hc; exact hbehind _ List.mem_cons_self
  obtain ⟨m, hm, hvalue⟩ := TagReader.exists_hit_fileTag hname hgap hne hgap' hne' hrest (front ++ before)
  have htext : renewedText name inside = (front ++ before) ++
      '*' :: (gap ++ (Tag.file.text ++ (gap' ++ (name ++ (behind ++ back))))) := by
    rw [renewedText, hspaced, Line.renew_text, hrenewed]
    simp
  rw [namesFile, htext]
  refine List.any_eq_true.2 ⟨m, hm, ?_⟩
  rw [hvalue, hname.fileNameOf_eq]
  exact sameIgnoringCase_self name

/-- Only the letters `A` to `Z` have another small letter, so texts that are the same up to case have the same blanks. -/
theorem mem_of_sameIgnoringCase {s t : Text} (h : Text.sameIgnoringCase s t = true) {c : Char} (hc : isBlank c = true)
    (hmem : c ∈ t) : c ∈ s := by
  have hstart := Text.isTagStart_of_isBlank hc
  rw [← Bool.not_eq_true, Text.isTagStart_iff] at hstart
  have hlower : c.toLower ∈ s.map Char.toLower := by
    rw [beq_iff_eq.1 h]
    exact List.mem_map_of_mem hmem
  obtain ⟨d, hd, heq⟩ := List.mem_map.1 hlower
  have hself : c.toLower = c := (Text.toLower_eq_or c).resolve_right fun ⟨h1, h2, _⟩ => hstart (.inr (.inl ⟨h1, h2⟩))
  rw [hself] at heq
  rcases Text.toLower_eq_or d with hd' | ⟨h1, h2, h3⟩
  · rwa [← heq, hd']
  · rw [heq] at h3
    exact absurd (.inr (.inr ⟨by omega, by omega⟩)) hstart

/-- **A name with a blank is never found:** a tag has its name up to the next blank. -/
theorem namesFile_eq_false {c : Char} (hc : isBlank c = true) (hmem : c ∈ name) (header : Text) :
    namesFile name header = false := by
  rw [← Bool.not_eq_true, namesFile, List.any_eq_true]
  rintro ⟨m, hm, hsame⟩
  obtain ⟨atStart, s, hread⟩ := TagReader.exists_read_of_mem_piecesFrom (TagReader.mem_hits_iff.1 hm)
  obtain ⟨-, -, -, -, hvalue⟩ := TagReader.fileTag_eq_some hread
  have hmem' : c ∈ Renewal.fileNameOf m.value := mem_of_sameIgnoringCase hsame hc hmem
  have hpart : c ∈ m.value := by
    unfold Renewal.fileNameOf Text.dropMarker at hmem'
    cases hsuffix : "*/".toList.isSuffixOf? m.value with
    | none => rwa [hsuffix] at hmem'
    | some front =>
      rw [hsuffix] at hmem'
      rw [← List.isSuffixOf?_eq_some_iff_append_eq.1 hsuffix]
      exact List.mem_append_left _ hmem'
  rw [hvalue c hpart] at hc
  cases hc

/-- A header that names the file has no finding about a missing tag for it. -/
theorem Layout.not_prefix_of_mem_findings (h : Layout content above inside below) {path : Path}
    (hnames : namesFile path.headerName (renewedText path.headerName inside) = true) {f : Finding}
    (hf : f ∈ (ofContent path content).findings) : ¬ "Missing or incorrect @file".toList <+: f.message := by
  rw [h.findings_eq, tagFindings, if_pos hnames, List.nil_append] at hf
  rcases List.mem_append.1 hf with hf | hf
  · obtain ⟨line, -, hfinding⟩ := List.mem_filterMap.1 hf
    obtain ⟨_, -, rfl⟩ := Option.map_eq_some_iff.1 hfinding
    rintro ⟨rest, hrest⟩
    have hhead := congrArg List.head? hrest
    cases hhead
  · split at hf
    · cases hf
    · rw [List.mem_singleton.1 hf]
      show ¬ "Missing or incorrect @file".toList <+: Problem.noAuthorTag.message
      decide

/-- **The file tag is accepted in either spelling.** When the name of the file has no blank and no colon and a line of
the header is a star and the file tag with this name, the header names the file and there is no finding that it does
not, whatever the other lines are. A name with a blank is not found in any header. -/
theorem fileTag_accepted (path : Path) (content : Text) :
    (path.headerName ≠ [] → (∀ c ∈ path.headerName, isBlank c = false) → ':' ∉ path.headerName →
      ∀ header line, (ofContent path content).header = some header → line ∈ header.lines →
        IsFileLine path.headerName line →
        (ofContent path content).hasFileTag = true ∧
          ∀ f ∈ (ofContent path content).findings, ¬ "Missing or incorrect @file".toList <+: f.message) ∧
    ((∃ c ∈ path.headerName, isBlank c = true) → (ofContent path content).hasFileTag = false) := by
  rcases exists_layout_or content with ⟨above, inside, below, h⟩ | hnone
  · have htag : (ofContent path content).hasFileTag =
        namesFile path.headerName (renewedText path.headerName inside) := by
      rw [h.review_eq, ofHeader, h.ofHeader_eq, renewedText, List.map_map]
      rfl
    constructor
    · intro hne hblank hcolon header line hheader hl hline
      have hname : IsTagName path.headerName := ⟨hne, hblank, hcolon, path.slash_not_mem_headerName⟩
      rw [h.header_eq] at hheader
      cases hheader
      obtain ⟨line, hmem, rfl⟩ := List.mem_map.1 hl
      have hnames := namesFile_of_isFileLine hname hmem hline
      exact ⟨htag.trans hnames, fun f hf => h.not_prefix_of_mem_findings hnames hf⟩
    · rintro ⟨c, hmem, hc⟩
      rw [htag, namesFile_eq_false hc hmem]
  · rw [ofContent_of_none path hnone]
    refine ⟨fun _ _ _ header line hheader => ?_, fun _ => rfl⟩
    cases hheader

/-- A tag at the end of the line before has the star as its name, a legacy tag is renewed, and a name with a blank is
not found. -/
theorem fileTag_accepted_star :
    let path : Path := ⟨"src/a.cpp".toList⟩
    let content := "/** @file
 * FILE:a.cpp
 */
".toList
    let spaced : Path := ⟨"src/a b.cpp".toList⟩
    (ofContent path content).hasFileTag = true ∧ (ofContent spaced content).hasFileTag = false := by
  intro path content spaced
  have hblank : path.headerName.all (fun c => !isBlank c) = true := by decide +kernel
  refine ⟨((fileTag_accepted path content).1 (by decide) (by simpa using hblank) (by decide) ⟨1, 3, ["/** @file".toList,
    "* FILE:a.cpp".toList, "*/".toList]⟩ "* FILE:a.cpp".toList (by decide) (by decide) ?_).1,
    (fileTag_accepted spaced content).2 ⟨' ', by decide, rfl⟩⟩
  exact ⟨[' '], "FILE:".toList, [], fun c hc => by cases List.mem_singleton.1 hc; rfl, by decide, rfl, .inr rfl⟩

end HeaderReview
end DocLint
