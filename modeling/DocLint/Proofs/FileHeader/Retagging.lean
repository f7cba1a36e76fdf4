import DocLint.Proofs.DocComment
import DocLint.Proofs.FileHeader.Reading

/-!
# What renewing tags does to a line

Each of the four passes replaces some spellings of tags by the tags and copies everything else (`Retagged`). From this
alone follows what the passes keep:

* no line feed, no carriage return at the end and no empty line comes of a pass (`Retagged.lineFeed_not_mem`,
  `Retagged.getLast?_ne`, `Retagged.eq_nil_iff`);
* a line begins or ends a comment after a pass exactly when it did before (`Retagged.opens_eq`, `Retagged.closes_eq`);
* a pass that changes a line takes a colon from it (`Retagged.eq_or_count_lt`).

`Renewal.ofLine_induction` carries such a property over all four passes.
-/

namespace DocLint

open Text (isBlank)

/-- `new` is `old` with some tags renewed, each followed by the blanks it had or by one space. -/
inductive Retagged : Text → Text → Prop
  | nil : Retagged [] []
  | keep (c : Char) {old new : Text} : Retagged old new → Retagged (c :: old) (c :: new)
  | renew (m : TagMatch) (gap : Text) {old new : Text} : m.Spelled → gap = m.gap ∨ gap = [' '] → Retagged old new →
      Retagged (m.source ++ old) (m.renewed gap ++ new)

namespace Retagged

theorem append (s : Text) {old new : Text} (h : Retagged old new) : Retagged (s ++ old) (s ++ new) := by
  induction s with
  | nil => exact h
  | cons c s ih => exact .keep c ih

theorem refl (s : Text) : Retagged s s := by simpa using append s .nil

/-! ## The passes -/

section Passes

variable {reader : TagReader}

/-- A replacement of a match that keeps it or renews its tag. -/
def Renews (replacement : TagMatch → Text) : Prop :=
  ∀ m, replacement m = m.source ∨ ∃ gap, (gap = m.gap ∨ gap = [' ']) ∧ replacement m = m.renewed gap

theorem replacement {replacement : TagMatch → Text} (hren : Renews replacement) {m : TagMatch} (hm : m.Spelled)
    {old new : Text} (h : Retagged old new) : Retagged (m.source ++ old) (replacement m ++ new) := by
  rcases hren m with heq | ⟨gap, hgap, heq⟩
  · rw [heq]
    exact append _ h
  · rw [heq]
    exact .renew m gap hm hgap h

theorem replaceAll (hr : TagReader.Sound reader) {replacement : TagMatch → Text} (hren : Renews replacement)
    (line : Text) : Retagged line (reader.replaceAll replacement line) := by
  rw [TagReader.replaceAll_eq]
  refine TagReader.pieces_induction hr
    (motive := fun _ s ps => Retagged s (ps.flatMap (TagReader.Piece.replaced replacement)))
    (fun _ => .nil) ?_ ?_ true line
  · intro _ m ps _ hm ih
    exact Retagged.replacement hren hm ih
  · intro _ c rest ps ih
    exact .keep c ih

theorem replaceFirstFrom (hr : TagReader.Sound reader) {replacement : TagMatch → Text} (hren : Renews replacement) :
    ∀ (atStart : Bool) (line : Text), Retagged line (reader.replaceFirstFrom replacement atStart line)
  | _, [] => .nil
  | atStart, c :: rest => by
    unfold TagReader.replaceFirstFrom
    split
    · rename_i m hm
      obtain ⟨heq, hspelled⟩ := hr hm
      rw [heq]
      exact Retagged.replacement hren hspelled (refl m.after)
    · exact .keep c (replaceFirstFrom hr hren false rest)

theorem orSpace_eq_or (gap : Text) : Renewal.orSpace gap = gap ∨ Renewal.orSpace gap = [' '] := by
  unfold Renewal.orSpace
  split
  · exact .inr rfl
  · exact .inl rfl

theorem renews_file (fileName : Text) : Renews fun m =>
    if Renewal.fileNameOf m.value = fileName then m.renewed (Renewal.orSpace m.gap) else m.source := by
  intro m
  dsimp only
  split
  · exact .inr ⟨_, orSpace_eq_or m.gap, rfl⟩
  · exact .inl rfl

theorem renewFile (fileName line : Text) : Retagged line (Renewal.renewFile fileName line) :=
  replaceAll TagReader.legacyFile_sound (renews_file fileName) line

theorem colonedGap_eq_or (m : TagMatch) : (if m.after.isEmpty then m.gap else Renewal.orSpace m.gap) = m.gap ∨
    (if m.after.isEmpty then m.gap else Renewal.orSpace m.gap) = [' '] := by
  split
  · exact .inl rfl
  · exact orSpace_eq_or m.gap

theorem dropColons (line : Text) : Retagged line (Renewal.dropColons line) :=
  replaceAll TagReader.coloned_sound (fun m => .inr ⟨_, colonedGap_eq_or m, rfl⟩) line

theorem renewAuthor (line : Text) : Retagged line (Renewal.renewAuthor line) :=
  replaceAll TagReader.legacyAuthor_sound (fun m => .inr ⟨_, orSpace_eq_or m.gap, rfl⟩) line

theorem renewDate (line : Text) : Retagged line (Renewal.renewDate line) := by
  unfold Renewal.renewDate
  split
  · exact refl line
  · exact replaceFirstFrom TagReader.legacyDate_sound (fun _ => .inr ⟨_, .inr rfl, rfl⟩) true line

end Passes

/-! ## Characters -/

section Characters

variable {old new : Text}

theorem renewed_ne_nil (m : TagMatch) (gap : Text) : m.renewed gap ≠ [] := by
  have htext : m.tag.text ≠ [] := by cases m.tag <;> decide
  simp [TagMatch.renewed, htext]

/-- A line stays empty or not. -/
theorem eq_nil_iff (h : Retagged old new) : new = [] ↔ old = [] := by
  cases h with
  | nil => rfl
  | keep c h => simp
  | renew m gap hm _ h => simp [hm.source_ne_nil, renewed_ne_nil]

/-- A character of the renewed line is one of the line before, a space or a character of a tag. -/
theorem mem_or (h : Retagged old new) {c : Char} (hc : c ∈ new) : c ∈ old ∨ c = ' ' ∨ ∃ tag : Tag, c ∈ tag.text := by
  induction h with
  | nil => cases hc
  | keep d _ ih =>
    rcases List.mem_cons.1 hc with rfl | hc
    · exact .inl List.mem_cons_self
    · exact (ih hc).imp_left (List.mem_cons_of_mem _)
  | renew m gap _ hgap _ ih =>
    rcases List.mem_append.1 hc with hc | hc
    · simp only [TagMatch.renewed, List.mem_append] at hc
      simp only [TagMatch.source, List.mem_append]
      rcases hc with ((hc | hc) | hc) | hc
      · exact .inl (by simp [hc])
      · exact .inr (.inr ⟨m.tag, hc⟩)
      · rcases hgap with rfl | rfl
        · exact .inl (by simp [hc])
        · exact .inr (.inl (List.mem_singleton.1 hc))
      · exact .inl (by simp [hc])
    · exact (ih hc).imp_left (List.mem_append_right _)

theorem lineFeed_not_mem (h : Retagged old new) (hold : '\n' ∉ old) : '\n' ∉ new := by
  intro hc
  rcases mem_or h hc with hc | hc | ⟨tag, hc⟩
  · exact hold hc
  · cases hc
  · revert hc
    cases tag <;> decide

/-- A blank that ends a renewed tag and is no space ended the match. -/
theorem getLast?_source {m : TagMatch} {gap : Text} (hgap : gap = m.gap ∨ gap = [' ']) {c : Char}
    (hc : isBlank c = true) (hspace : c ≠ ' ') (h : (m.renewed gap).getLast? = some c) :
    m.source.getLast? = some c := by
  rw [TagMatch.renewed, List.getLast?_append] at h
  rw [TagMatch.source, List.getLast?_append]
  cases hv : m.value.getLast? with
  | some e => rwa [hv] at h
  | none =>
    rw [hv, Option.none_or] at h
    rw [Option.none_or]
    rcases hgap with rfl | rfl
    · rw [List.getLast?_append] at h ⊢
      cases hg : m.gap.getLast? with
      | some e => rwa [hg] at h
      | none =>
        -- The last character would be the last letter of the tag, which is no blank.
        rw [hg, Option.none_or, List.getLast?_append] at h
        cases htag : m.tag <;> rw [htag] at h <;> cases h <;> cases hc
    · rw [List.getLast?_append, List.getLast?_singleton] at h
      exact absurd (Option.some.inj h).symm hspace

/-- A blank that ends the renewed line and is no space ended the line before. -/
theorem getLast?_eq (h : Retagged old new) {c : Char} (hc : isBlank c = true) (hspace : c ≠ ' ')
    (hlast : new.getLast? = some c) : old.getLast? = some c := by
  induction h with
  | nil => exact hlast
  | @keep d old new h ih =>
    by_cases hnil : new = []
    · rw [hnil] at hlast
      rwa [(eq_nil_iff h).1 hnil]
    · have hold : old ≠ [] := fun h' => hnil ((eq_nil_iff h).2 h')
      rw [← List.singleton_append, List.getLast?_append_of_ne_nil _ hnil] at hlast
      rw [← List.singleton_append, List.getLast?_append_of_ne_nil _ hold]
      exact ih hlast
  | @renew m gap old new hm hgap h ih =>
    by_cases hnil : new = []
    · rw [hnil, List.append_nil] at hlast
      rw [(eq_nil_iff h).1 hnil, List.append_nil]
      exact getLast?_source hgap hc hspace hlast
    · have hold : old ≠ [] := fun h' => hnil ((eq_nil_iff h).2 h')
      rw [List.getLast?_append_of_ne_nil _ hnil] at hlast
      rw [List.getLast?_append_of_ne_nil _ hold]
      exact ih hlast

end Characters

/-! ## Marks of comments -/

section Marks

variable {old new : Text}

/-- A line begins with the same characters up to the first one that a tag can begin with. -/
theorem prefix_iff (h : Retagged old new) : ∀ {p : Text}, (∀ c ∈ p, Text.isTagStart c = false) →
    (p <+: new ↔ p <+: old) := by
  -- Before a tag may stand its lead, which is the same in both lines; the tag itself begins with a tag start.
  have htag : ∀ {d : Char} {p s t : Text}, Text.isTagStart d = true → (∀ c ∈ p, Text.isTagStart c = false) →
      (p <+: d :: s ↔ p <+: '@' :: t) := by
    intro d p s t hd hp
    cases p with
    | nil => simp
    | cons e p =>
      have he := hp e List.mem_cons_self
      rw [List.cons_prefix_cons, List.cons_prefix_cons]
      constructor
      · rintro ⟨rfl, -⟩
        rw [hd] at he
        cases he
      · rintro ⟨rfl, -⟩
        cases he
  induction h with
  | nil => intros; rfl
  | keep c _ ih =>
    intro p hp
    cases p with
    | nil => simp
    | cons e p =>
      rw [List.cons_prefix_cons, List.cons_prefix_cons, ih fun c hc => hp c (List.mem_cons_of_mem _ hc)]
  | @renew m gap old new hm _ _ ih =>
    intro p hp
    obtain ⟨head, body, hw, hhead, -⟩ := hm.written
    have htext : ∃ t, m.tag.text = '@' :: t := by cases m.tag <;> exact ⟨_, rfl⟩
    obtain ⟨t, ht⟩ := htext
    have hlead : m.lead = [] ∨ ∃ c, m.lead = [c] := by
      rcases Nat.le_one_iff_eq_zero_or_eq_one.1 hm.lead_length with h0 | h1
      · exact .inl (List.length_eq_zero_iff.1 h0)
      · exact .inr (List.length_eq_one_iff.1 h1)
    simp only [TagMatch.source, TagMatch.renewed, hw, ht, List.append_assoc, List.cons_append]
    rcases hlead with hl | ⟨c, hl⟩
    · rw [hl, List.nil_append, List.nil_append]
      exact (htag hhead hp).symm
    · rw [hl, List.singleton_append, List.singleton_append]
      cases p with
      | nil => simp
      | cons e p =>
        rw [List.cons_prefix_cons, List.cons_prefix_cons]
        exact and_congr_right fun _ => (htag hhead fun c hc => hp c (List.mem_cons_of_mem _ hc)).symm

theorem opens_eq (h : Retagged old new) : DocComment.opens new = DocComment.opens old := by
  rw [Bool.eq_iff_iff, DocComment.opens_iff, DocComment.opens_iff]
  refine exists_congr fun blanks => and_congr_right fun hb => prefix_iff h fun c hc => ?_
  rcases List.mem_append.1 hc with hc | hc
  · exact Text.isTagStart_of_isBlank (hb c hc)
  · have hmark : DocComment.openMark.all (fun c => !Text.isTagStart c) = true := by decide
    simpa using List.all_eq_true.1 hmark c hc

/-- A line begins with the same blanks. -/
theorem leadingBlanks_eq (h : Retagged old new) : Text.leadingBlanks new = Text.leadingBlanks old := by
  have hstart : ∀ s : Text, ∀ c ∈ Text.leadingBlanks s, Text.isTagStart c = false := fun s c hc =>
    Text.isTagStart_of_isBlank (Text.isBlank_of_mem_leadingBlanks hc)
  have hnew : Text.leadingBlanks new <+: old := (prefix_iff h (hstart new)).1 (List.takeWhile_prefix _)
  have hold : Text.leadingBlanks old <+: new := (prefix_iff h (hstart old)).2 (List.takeWhile_prefix _)
  exact (Text.prefix_takeWhile hnew fun c hc => Text.isBlank_of_mem_leadingBlanks hc).eq_of_length_le
    (Text.prefix_takeWhile hold fun c hc => Text.isBlank_of_mem_leadingBlanks hc).length_le

/-! The end of a line is gone through from behind. Once a character that is in no closing mark has been met, only
whether the mark has been seen before still counts (`settled`). -/

/-- The tail of a line once a character has been met that no closing mark has. -/
def settled : DocComment.Tail → DocComment.Tail
  | .closed => .closed
  | _ => .other

theorem cons_of_not_mark {c : Char} (hb : isBlank c = false) (hs : c ≠ '/') (ht : c ≠ '*') (t : DocComment.Tail) :
    t.cons c = settled t := by
  cases t <;> simp [DocComment.Tail.cons, settled, hb, hs, ht]

theorem settled_foldr {s : Text} (hs : ∀ c ∈ s, isBlank c = true) (t : DocComment.Tail) :
    settled (s.foldr DocComment.Tail.cons t) = settled t := by
  induction s with
  | nil => rfl
  | cons c s ih =>
    rw [← ih fun d hd => hs d (List.mem_cons_of_mem _ hd), List.foldr_cons]
    have hc := hs c List.mem_cons_self
    have hstar : c ≠ '*' := by rintro rfl; cases hc
    cases s.foldr DocComment.Tail.cons t <;> simp [DocComment.Tail.cons, settled, hc, hstar]

theorem foldr_settled (s : Text) (t : DocComment.Tail) : s.foldr DocComment.Tail.cons (settled t) = settled t := by
  induction s with
  | nil => rfl
  | cons c s ih =>
    rw [List.foldr_cons, ih]
    cases t <;> rfl

/-- Nothing before such a character and the blanks behind it counts for the tail. -/
theorem tail_append_cons {c : Char} (hb : isBlank c = false) (hs : c ≠ '/') (ht : c ≠ '*') (front : Text) {gap : Text}
    (hgap : ∀ d ∈ gap, isBlank d = true) (rest : Text) :
    DocComment.tail (front ++ c :: (gap ++ rest)) = settled (DocComment.tail rest) :=
  calc DocComment.tail (front ++ c :: (gap ++ rest))
    _ = front.foldr DocComment.Tail.cons ((DocComment.tail (gap ++ rest)).cons c) := DocComment.tail_append _ _
    _ = front.foldr DocComment.Tail.cons (settled (DocComment.tail (gap ++ rest))) := by
      rw [cons_of_not_mark hb hs ht]
    _ = settled (DocComment.tail (gap ++ rest)) := foldr_settled _ _
    _ = settled (DocComment.tail rest) := by rw [DocComment.tail_append, settled_foldr hgap]

/-- The tail of a line with a match in front depends on the value of the match alone. -/
theorem tail_source {m : TagMatch} (hm : m.Spelled) (s : Text) :
    DocComment.tail (m.source ++ s) = settled (DocComment.tail (m.value ++ s)) := by
  obtain ⟨head, body, hw, -, -⟩ := hm.written
  have hsplit : m.source ++ s = (m.lead ++ head :: body) ++ ':' :: (m.gap ++ (m.value ++ s)) := by
    simp [TagMatch.source, hw]
  rw [hsplit, tail_append_cons (by decide) (by decide) (by decide) _ hm.gap]

/-- So does it with a renewed tag in front. -/
theorem tail_renewed (m : TagMatch) {gap : Text} (hgap : ∀ c ∈ gap, isBlank c = true) (s : Text) :
    DocComment.tail (m.renewed gap ++ s) = settled (DocComment.tail (m.value ++ s)) := by
  have htext : ∃ t c, m.tag.text = t ++ [c] ∧ isBlank c = false ∧ c ≠ '/' ∧ c ≠ '*' := by
    cases m.tag with
    | file => exact ⟨"@fil".toList, 'e', rfl, rfl, by decide, by decide⟩
    | author => exact ⟨"@autho".toList, 'r', rfl, rfl, by decide, by decide⟩
    | date => exact ⟨"@dat".toList, 'e', rfl, rfl, by decide, by decide⟩
  obtain ⟨t, c, ht, hb, hs, hstar⟩ := htext
  have hsplit : m.renewed gap ++ s = (m.lead ++ t) ++ c :: (gap ++ (m.value ++ s)) := by
    simp [TagMatch.renewed, ht]
  rw [hsplit, tail_append_cons hb hs hstar _ hgap]

theorem isBlank_of_gap {m : TagMatch} (hm : m.Spelled) {gap : Text} (hgap : gap = m.gap ∨ gap = [' ']) :
    ∀ c ∈ gap, isBlank c = true := by
  rcases hgap with rfl | rfl
  · exact hm.gap
  · intro c hc
    rw [List.mem_singleton.1 hc]
    rfl

theorem tail_eq (h : Retagged old new) : DocComment.tail new = DocComment.tail old := by
  induction h with
  | nil => rfl
  | keep c _ ih => exact congrArg (DocComment.Tail.cons c) ih
  | renew m gap hm hgap _ ih =>
    rw [tail_renewed m (isBlank_of_gap hm hgap), tail_source hm, DocComment.tail_append, DocComment.tail_append, ih]

theorem closes_eq (h : Retagged old new) : DocComment.closes new = DocComment.closes old := by
  rw [Bool.eq_iff_iff, DocComment.closes_iff_tail, DocComment.closes_iff_tail, tail_eq h]

end Marks

/-! ## Colons -/

section Colons

variable {old new : Text}

theorem count_blanks {s : Text} (h : ∀ c ∈ s, isBlank c = true) : s.count ':' = 0 :=
  List.count_eq_zero.2 fun hc => absurd (h ':' hc) (by decide)

theorem count_source {m : TagMatch} (hm : m.Spelled) :
    m.source.count ':' = m.lead.count ':' + m.value.count ':' + 1 := by
  obtain ⟨head, body, hw, hhead, hbody⟩ := hm.written
  have hne : head ≠ ':' := by rintro rfl; cases hhead
  simp only [TagMatch.source, hw, List.count_append, List.count_cons_of_ne hne, List.count_eq_zero.2 hbody,
    count_blanks hm.gap, List.count_singleton_self]
  omega

theorem count_renewed (m : TagMatch) {gap : Text} (hgap : ∀ c ∈ gap, isBlank c = true) :
    (m.renewed gap).count ':' = m.lead.count ':' + m.value.count ':' := by
  have htext : m.tag.text.count ':' = 0 := by cases m.tag <;> rfl
  simp only [TagMatch.renewed, List.count_append, htext, count_blanks hgap]
  omega

theorem renewed_ne_source {m : TagMatch} (hm : m.Spelled) {gap : Text} (hgap : gap = m.gap ∨ gap = [' ']) :
    m.renewed gap ≠ m.source := by
  intro heq
  have hcount := congrArg (List.count ':') heq
  rw [count_source hm, count_renewed m (isBlank_of_gap hm hgap)] at hcount
  omega

theorem count_le_of_eq_or (h : new = old ∨ new.count ':' < old.count ':') : new.count ':' ≤ old.count ':' := by
  rcases h with rfl | hlt
  · exact Nat.le_refl _
  · exact Nat.le_of_lt hlt

/-- **A change takes a colon.** -/
theorem eq_or_count_lt (h : Retagged old new) : new = old ∨ new.count ':' < old.count ':' := by
  induction h with
  | nil => exact .inl rfl
  | keep c _ ih =>
    refine ih.imp (congrArg (List.cons c)) fun hlt => ?_
    rw [List.count_cons, List.count_cons]
    omega
  | @renew m gap old new hm hgap h ih =>
    right
    have hle := count_le_of_eq_or ih
    rw [List.count_append, List.count_append, count_source hm, count_renewed m (isBlank_of_gap hm hgap)]
    omega

theorem count_le (h : Retagged old new) : new.count ':' ≤ old.count ':' := count_le_of_eq_or h.eq_or_count_lt

/-- A line that keeps its colons is not changed. -/
theorem eq_of_count_le (h : Retagged old new) (hle : old.count ':' ≤ new.count ':') : new = old :=
  h.eq_or_count_lt.resolve_right (Nat.not_lt.2 hle)

end Colons
end Retagged

/-! ## All passes -/

namespace Renewal

/-- What every pass keeps holds between a line and its renewal. -/
theorem ofLine_induction {P : Text → Text → Prop} (step : ∀ {old new}, Retagged old new → P old new)
    (trans : ∀ {s t u}, P s t → P t u → P s u) (fileName line : Text) : P line (ofLine fileName line).text :=
  have hfile : P line _ := step (Retagged.renewFile fileName line)
  have hcolons : P line _ := trans hfile (step (Retagged.dropColons _))
  have hauthor : P line _ := trans hcolons (step (Retagged.renewAuthor _))
  trans hauthor (step (Retagged.renewDate _))

variable (fileName line : Text)

theorem ofLine_eq_nil_iff : (ofLine fileName line).text = [] ↔ line = [] :=
  ofLine_induction (P := fun s t => t = [] ↔ s = []) (fun h => h.eq_nil_iff) (fun h h' => h'.trans h) fileName line

theorem lineFeed_not_mem_ofLine : '\n' ∉ line → '\n' ∉ (ofLine fileName line).text :=
  ofLine_induction (fun h => h.lineFeed_not_mem) (fun h h' hs => h' (h hs)) fileName line

theorem getLast?_ofLine {c : Char} (hc : isBlank c = true) (hspace : c ≠ ' ') :
    (ofLine fileName line).text.getLast? = some c → line.getLast? = some c :=
  ofLine_induction (P := fun s t => t.getLast? = some c → s.getLast? = some c)
    (fun h => h.getLast?_eq hc hspace) (fun h h' hs => h (h' hs)) fileName line

theorem opens_ofLine : DocComment.opens (ofLine fileName line).text = DocComment.opens line :=
  ofLine_induction (P := fun s t => DocComment.opens t = DocComment.opens s) (fun h => h.opens_eq)
    (fun h h' => h'.trans h) fileName line

theorem closes_ofLine : DocComment.closes (ofLine fileName line).text = DocComment.closes line :=
  ofLine_induction (P := fun s t => DocComment.closes t = DocComment.closes s) (fun h => h.closes_eq)
    (fun h h' => h'.trans h) fileName line

theorem leadingBlanks_ofLine : Text.leadingBlanks (ofLine fileName line).text = Text.leadingBlanks line :=
  ofLine_induction (P := fun s t => Text.leadingBlanks t = Text.leadingBlanks s) (fun h => h.leadingBlanks_eq)
    (fun h h' => h'.trans h) fileName line

/-- A renewal that changes a line takes a colon from it. -/
theorem ofLine_eq_or_count_lt :
    (ofLine fileName line).text = line ∨ (ofLine fileName line).text.count ':' < line.count ':' :=
  ofLine_induction (P := fun s t => t = s ∨ t.count ':' < s.count ':') (fun h => h.eq_or_count_lt)
    (by
      rintro s t u (rfl | h) (rfl | h')
      · exact .inl rfl
      · exact .inr h'
      · exact .inr h
      · exact .inr (h'.trans h)) fileName line

end Renewal
end DocLint
