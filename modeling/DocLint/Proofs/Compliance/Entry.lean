import DocLint.Compliance
import DocLint.Proofs.DocComment

/-!
# Entries of a documentation comment

An entry is `@tag`, blanks, the subject, the type in brackets, perhaps blanks, and a dash. A text is found to have it
exactly if it stands there (`Compliance.hasEntry_iff`). A line that is written for an entry (`Compliance.entryLine`) does
not end the comment it is in (`Compliance.closes_entryLine`), and gives the comment that entry
(`Compliance.hasEntry_of_entryLine`).
-/

namespace DocLint
namespace Compliance

open Text (isBlank trim trimStart)

/-! ## Where an entry stands -/

section Standing

variable {tag subject type s : Text}

theorem hasEntry_iff_exists : ∀ {s : Text}, hasEntry tag subject type s = true ↔
    ∃ before rest, s = before ++ rest ∧ beginsWithEntry tag subject type rest = true
  | [] => by
    have hnone : beginsWithEntry tag subject type [] = false := rfl
    simp [hasEntry, hnone]
  | c :: s => by
    rw [hasEntry, Bool.or_eq_true, hasEntry_iff_exists]
    constructor
    · rintro (h | ⟨before, rest, rfl, h⟩)
      · exact ⟨[], c :: s, rfl, h⟩
      · exact ⟨c :: before, rest, rfl, h⟩
    · rintro ⟨before, rest, heq, h⟩
      cases before with
      | nil => exact .inl (heq ▸ h)
      | cons d before =>
        cases heq
        exact .inr ⟨before, rest, rfl, h⟩

/-- A text begins with an entry when the parts of the entry follow each other there. -/
theorem beginsWithEntry_iff (hsubject : ∀ c ∈ (subject ++ ['[']).head?, isBlank c = false) :
    beginsWithEntry tag subject type s = true ↔
      ∃ gap gap' rest, gap ≠ [] ∧ (∀ c ∈ gap, isBlank c = true) ∧ (∀ c ∈ gap', isBlank c = true) ∧
        s = '@' :: tag ++ (gap ++ (subject ++ ['['] ++ type ++ [']'] ++ (gap' ++ '-' :: rest))) := by
  constructor
  · intro h
    unfold beginsWithEntry at h
    split at h
    · cases h
    · rename_i rest hrest
      rw [Bool.and_eq_true] at h
      obtain ⟨hgap, h⟩ := h
      split at h
      · cases h
      · rename_i behind hbehind
        obtain ⟨after, hafter⟩ := List.head?_eq_some_iff.1 (beq_iff_eq.1 h)
        refine ⟨Text.leadingBlanks rest, Text.leadingBlanks behind, after, by simpa using hgap,
          fun c => Text.isBlank_of_mem_leadingBlanks, fun c => Text.isBlank_of_mem_leadingBlanks, ?_⟩
        rw [← hafter, Text.leadingBlanks_append_trimStart, List.isPrefixOf?_eq_some_iff_append_eq.1 hbehind,
          Text.leadingBlanks_append_trimStart, List.isPrefixOf?_eq_some_iff_append_eq.1 hrest]
  · rintro ⟨gap, gap', rest, hne, hgap, hgap', rfl⟩
    have hhead : ∀ c ∈ (subject ++ ['['] ++ type ++ [']'] ++ (gap' ++ '-' :: rest)).head?, isBlank c = false := by
      intro c hc
      cases subject <;> exact hsubject c (by simpa using hc)
    obtain ⟨hleading, hrest⟩ := Text.trimStart_append hgap hhead
    obtain ⟨-, hdash⟩ := @Text.trimStart_append gap' ('-' :: rest) hgap' fun c hc => by cases hc; rfl
    have htag : ('@' :: tag).isPrefixOf? ('@' :: tag ++ (gap ++ (subject ++ ['['] ++ type ++ [']'] ++
        (gap' ++ '-' :: rest)))) = some (gap ++ (subject ++ ['['] ++ type ++ [']'] ++ (gap' ++ '-' :: rest))) :=
      List.isPrefixOf?_eq_some_iff_append_eq.2 rfl
    have htype : (subject ++ ['['] ++ type ++ [']']).isPrefixOf? (subject ++ ['['] ++ type ++ [']'] ++
        (gap' ++ '-' :: rest)) = some (gap' ++ '-' :: rest) := List.isPrefixOf?_eq_some_iff_append_eq.2 rfl
    simp only [beginsWithEntry, htag, hleading, hrest, htype, hdash]
    simpa using hne

/-- **A text has an entry** exactly if the parts of the entry follow each other somewhere in it. -/
theorem hasEntry_iff (hsubject : ∀ c ∈ (subject ++ ['[']).head?, isBlank c = false) :
    hasEntry tag subject type s = true ↔
      ∃ before gap gap' rest, gap ≠ [] ∧ (∀ c ∈ gap, isBlank c = true) ∧ (∀ c ∈ gap', isBlank c = true) ∧
        s = before ++ ('@' :: tag ++ (gap ++ (subject ++ ['['] ++ type ++ [']'] ++ (gap' ++ '-' :: rest)))) := by
  rw [hasEntry_iff_exists]
  constructor
  · rintro ⟨before, rest, rfl, h⟩
    obtain ⟨gap, gap', after, hne, hgap, hgap', rfl⟩ := (beginsWithEntry_iff hsubject).1 h
    exact ⟨before, gap, gap', after, hne, hgap, hgap', rfl⟩
  · rintro ⟨before, gap, gap', after, hne, hgap, hgap', rfl⟩
    exact ⟨before, _, rfl, (beginsWithEntry_iff hsubject).2 ⟨gap, gap', after, hne, hgap, hgap', rfl⟩⟩

end Standing

/-! ## Lines that are written for an entry -/

section Writing

/-- An entry up to its dash. -/
def entry (tag subject type : Text) : Text := '@' :: tag ++ ' ' :: (subject ++ ['['] ++ type ++ "] -".toList)

/-- A line of a comment with an entry and a remark on it. -/
def entryLine (tag subject type remark : Text) : Text := " * ".toList ++ entry tag subject type ++ ' ' :: remark

variable {tag subject type remark : Text}

/-- An entry line ends the comment only if its remark does. -/
theorem closes_entryLine (h : DocComment.closes remark = false) :
    DocComment.closes (entryLine tag subject type remark) = false := by
  have hother : ∀ s : Text, s.foldr DocComment.Tail.cons .other = .other := by
    intro s
    induction s with
    | nil => rfl
    | cons c s ih => rw [List.foldr_cons, ih]; rfl
  have hopen : DocComment.tail remark ≠ .closed := by
    intro htail
    rw [DocComment.closes_iff_tail.2 htail] at h
    cases h
  have hdash : DocComment.tail ('-' :: ' ' :: remark) = .other := by
    simp only [DocComment.tail, List.foldr_cons] at hopen ⊢
    cases htail : remark.foldr DocComment.Tail.cons .blank with
    | closed => exact absurd htail hopen
    | blank => rfl
    | slash => rfl
    | other => rfl
  have hline : entryLine tag subject type remark =
      (" * ".toList ++ '@' :: tag ++ ' ' :: (subject ++ ['['] ++ type ++ [']', ' '])) ++ '-' :: ' ' :: remark := by
    simp [entryLine, entry]
  rw [← Bool.not_eq_true, DocComment.closes_iff_tail, hline, DocComment.tail_append, hdash, hother]
  decide

theorem entry_infix_trim : entry tag subject type <:+: trim (entryLine tag subject type remark) := by
  have hstart : trimStart (entryLine tag subject type remark) =
      ("* ".toList ++ '@' :: tag ++ ' ' :: (subject ++ ['['] ++ type ++ [']', ' '])) ++ '-' :: ' ' :: remark := by
    simp [entryLine, entry, trimStart, isBlank]
  have hprefix := DocComment.prefix_trimEnd (show isBlank '-' = false from rfl)
    ("* ".toList ++ '@' :: tag ++ ' ' :: (subject ++ ['['] ++ type ++ [']', ' '])) (' ' :: remark)
  rw [trim, hstart]
  refine List.IsInfix.trans ?_ hprefix.isInfix
  exact ⟨"* ".toList, [], by simp [entry]⟩

/-- **A comment with an entry line has the entry.** -/
theorem hasEntry_of_entryLine (hsubject : ∀ c ∈ (subject ++ ['[']).head?, isBlank c = false) {lines : List Text}
    (h : entryLine tag subject type remark ∈ lines) :
    hasEntry tag subject type (Text.spaced (lines.map trim)) = true := by
  obtain ⟨before, after, heq⟩ := entry_infix_trim.trans (Text.infix_spaced (List.mem_map_of_mem h))
  rw [← heq]
  refine (hasEntry_iff hsubject).2 ⟨before, [' '], [' '], after, by simp, by simp [isBlank], by simp [isBlank], ?_⟩
  simp [entry]

/-- A comment of the given lines between its two marks. -/
def commentLines (inner : List Text) : List Text := "/**".toList :: (inner ++ [" */".toList])

theorem opens_commentLines {inner : List Text} : ∀ line ∈ (commentLines inner).head?, DocComment.opens line = true := by
  intro line hline
  cases hline
  decide

theorem isClosed_commentLines {inner : List Text} (h : ∀ line ∈ inner, DocComment.closes line = false) :
    DocComment.IsClosed (commentLines inner) := by
  refine (DocComment.isClosed_cons (by simp)).2 ⟨by decide, ?_⟩
  induction inner with
  | nil => exact DocComment.isClosed_singleton.2 (by decide)
  | cons line inner ih =>
    obtain ⟨hline, hrest⟩ := List.forall_mem_cons.1 h
    exact (DocComment.isClosed_cons (by simp)).2 ⟨hline, ih hrest⟩

end Writing
end Compliance
end DocLint
