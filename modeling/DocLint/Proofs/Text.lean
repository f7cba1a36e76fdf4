import Mathlib.Data.List.DropRight
import DocLint.Text

/-!
# Blanks and letters of a text

Trimming cuts a text between blanks: `trimStart` stops at the first character that is no blank
(`trimStart_append_cons`), `trimEnd` at the last one (`trimEnd_append_cons`); what neither begins nor ends with a blank
is trimmed (`trim_eq_self_iff`). A word that is found in any case stands there in some case (`dropWord?_eq_some`), and
the case of a character decides nothing about colons and tag starts. Bytes add up (`byteCount_append`).
-/

namespace DocLint
namespace Text

/-! ## Trimming -/

section Trimming

theorem leadingBlanks_append_trimStart (s : Text) : leadingBlanks s ++ trimStart s = s :=
  List.takeWhile_append_dropWhile

theorem isBlank_of_mem_leadingBlanks {s : Text} {c : Char} (h : c ∈ leadingBlanks s) : isBlank c = true :=
  List.mem_takeWhile_imp h

/-- A beginning of characters in `p` is part of the longest one. -/
theorem prefix_takeWhile {p : Char → Bool} {s t : Text} (h : t <+: s) (ht : ∀ c ∈ t, p c = true) :
    t <+: s.takeWhile p := by
  obtain ⟨rest, rfl⟩ := h
  rw [List.takeWhile_append_of_pos ht]
  exact List.prefix_append _ _

/-- Trimming at the start does not go beyond a character that is no blank. -/
theorem trimStart_append_cons {c : Char} (hc : isBlank c = false) (rest : Text) :
    ∀ s : Text, trimStart (s ++ c :: rest) = trimStart s ++ c :: rest
  | [] => by simp [trimStart, hc]
  | d :: s => by
    have ih := trimStart_append_cons hc rest s
    cases hd : isBlank d with
    | true => simpa [trimStart, hd] using ih
    | false => simp [trimStart, hd]

/-- Trimming at the end does not go beyond a character that is no blank. -/
theorem trimEnd_append {c : Char} (hc : isBlank c = false) (s t : Text) :
    trimEnd (s ++ c :: t) = s ++ c :: trimEnd t := by
  simp only [trimEnd, dropEndWhile, List.reverse_append, List.reverse_cons, List.append_assoc, List.singleton_append,
    List.dropWhile_append, List.isEmpty_iff]
  split
  · rename_i hblank
    simp [hblank, hc]
  · simp

theorem trim_append {c : Char} (hc : isBlank c = false) (s t : Text) :
    trim (s ++ c :: t) = trimStart s ++ c :: trimEnd t := by
  rw [trim, trimStart_append_cons hc, trimEnd_append hc]

/-- Trimming at the end takes the blanks behind a character that is none. -/
theorem trimEnd_append_cons {c : Char} (hc : isBlank c = false) (s : Text) {blanks : Text}
    (hb : ∀ d ∈ blanks, isBlank d = true) : trimEnd (s ++ c :: blanks) = s ++ [c] := by
  have hblanks : trimEnd blanks = [] := List.rdropWhile_eq_nil_iff.2 hb
  rw [trimEnd_append hc, hblanks]

/-- A text is its trimmed end with blanks behind it. -/
theorem exists_trimEnd_append (s : Text) : ∃ blanks, (∀ c ∈ blanks, isBlank c = true) ∧ s = trimEnd s ++ blanks := by
  refine ⟨(s.reverse.takeWhile isBlank).reverse, fun c hc => List.mem_takeWhile_imp (List.mem_reverse.1 hc), ?_⟩
  rw [trimEnd, dropEndWhile, ← List.reverse_append, List.takeWhile_append_dropWhile, List.reverse_reverse]

/-- A beginning of characters in `p` is the longest one when the next character is not in `p`. -/
theorem span_append {p : Char → Bool} {s t : Text} (hs : ∀ c ∈ s, p c = true) (ht : ∀ c ∈ t.head?, p c = false) :
    (s ++ t).takeWhile p = s ∧ (s ++ t).dropWhile p = t := by
  rw [List.takeWhile_append_of_pos hs, List.dropWhile_append_of_pos hs]
  cases t with
  | nil => simp
  | cons c t =>
    have hc := ht c rfl
    simp [hc]

/-- Behind the longest beginning of characters in `p` stands none of them. -/
theorem head?_dropWhile (p : Char → Bool) (s : Text) : ∀ c ∈ (s.dropWhile p).head?, p c = false := by
  intro c hc
  have hnot := List.head?_dropWhile_not p s
  rw [Option.mem_def.1 hc] at hnot
  exact hnot

/-- A text is its trimmed part with blanks before and behind it. -/
theorem exists_trim_append (s : Text) : ∃ before behind, (∀ c ∈ before ++ behind, isBlank c = true) ∧
    s = before ++ (trim s ++ behind) := by
  obtain ⟨behind, hbehind, heq⟩ := exists_trimEnd_append (trimStart s)
  refine ⟨leadingBlanks s, behind, ?_, ?_⟩
  · exact List.forall_mem_append.2 ⟨fun c hc => isBlank_of_mem_leadingBlanks hc, hbehind⟩
  · rw [trim, ← heq, leadingBlanks_append_trimStart]

/-- Trimming at the start takes the blanks before a text that begins with none. -/
theorem trimStart_append {blanks s : Text} (hb : ∀ c ∈ blanks, isBlank c = true)
    (hs : ∀ c ∈ s.head?, isBlank c = false) : leadingBlanks (blanks ++ s) = blanks ∧ trimStart (blanks ++ s) = s :=
  span_append hb hs

theorem trimStart_eq_self_iff {s : Text} : trimStart s = s ↔ ∀ c ∈ s.head?, isBlank c = false := by
  cases s with
  | nil => simp [trimStart]
  | cons c s =>
    rw [trimStart, List.dropWhile_eq_self_iff]
    simp

/-- No blank is left at the beginning of a text without the blanks before it. -/
theorem head?_trimStart (s : Text) : ∀ c ∈ (trimStart s).head?, isBlank c = false := head?_dropWhile isBlank s

theorem trimEnd_eq_self_iff {s : Text} : trimEnd s = s ↔ ∀ c ∈ s.getLast?, isBlank c = false := by
  rw [← List.head?_reverse, ← trimStart_eq_self_iff, trimEnd, dropEndWhile, trimStart]
  exact List.reverse_eq_iff

theorem trimEnd_prefix (s : Text) : trimEnd s <+: s := List.rdropWhile_prefix isBlank s

/-- A text is trimmed when it neither begins nor ends with a blank. -/
theorem trim_eq_self_iff {s : Text} :
    trim s = s ↔ (∀ c ∈ s.head?, isBlank c = false) ∧ ∀ c ∈ s.getLast?, isBlank c = false := by
  rw [← trimStart_eq_self_iff, ← trimEnd_eq_self_iff, trim]
  constructor
  · intro h
    have hprefix : s <+: trimStart s := by simpa only [h] using trimEnd_prefix (trimStart s)
    have hstart : trimStart s = s := (List.dropWhile_suffix isBlank).eq_of_length_le hprefix.length_le
    exact ⟨hstart, by rwa [hstart] at h⟩
  · rintro ⟨hstart, hend⟩
    rw [hstart, hend]

theorem trim_trim (s : Text) : trim (trim s) = trim s := by
  refine trim_eq_self_iff.2 ⟨fun c hc => ?_, trimEnd_eq_self_iff.1 (List.rdropWhile_idempotent isBlank _)⟩
  obtain ⟨blanks, hblanks⟩ := trimEnd_prefix (trimStart s)
  have hhead : c ∈ (trimStart s).head? := by
    rw [← hblanks, List.head?_append, ← trim, Option.mem_def.1 hc]
    rfl
  exact head?_trimStart s c hhead

/-- Trimming takes the blanks behind a text. -/
theorem trim_append_of_blank {blanks : Text} (hb : ∀ c ∈ blanks, isBlank c = true) (s : Text) :
    trim (s ++ blanks) = trim s := by
  have hend : ∀ t : Text, trimEnd (t ++ blanks) = trimEnd t := fun t => by
    rw [trimEnd, trimEnd, dropEndWhile, dropEndWhile, List.reverse_append,
      List.dropWhile_append_of_pos fun c hc => hb c (List.mem_reverse.1 hc)]
  rw [trim, trim, trimStart, trimStart, List.dropWhile_append]
  split
  · rename_i hempty
    rw [List.isEmpty_iff.1 hempty, List.dropWhile_eq_nil_iff.2 hb]
  · exact hend _

theorem mem_of_mem_trim {c : Char} {s : Text} (h : c ∈ trim s) : c ∈ s :=
  (List.dropWhile_suffix isBlank).subset (( trimEnd_prefix (trimStart s)).subset h)

/-- Trimming takes blanks only. -/
theorem count_trim {c : Char} (hc : isBlank c = false) (s : Text) : (trim s).count c = s.count c := by
  have hnone : ∀ {blanks : Text}, (∀ d ∈ blanks, isBlank d = true) → blanks.count c = 0 := by
    intro blanks hb
    refine List.count_eq_zero.2 fun hmem => ?_
    rw [hb c hmem] at hc
    cases hc
  obtain ⟨blanks, hb, hend⟩ := exists_trimEnd_append (trimStart s)
  have hstart := leadingBlanks_append_trimStart s
  calc (trim s).count c
      = (trimEnd (trimStart s) ++ blanks).count c := by rw [List.count_append, hnone hb, Nat.add_zero, trim]
    _ = (leadingBlanks s ++ trimStart s).count c := by
        rw [← hend, List.count_append, hnone fun d hd => isBlank_of_mem_leadingBlanks hd, Nat.zero_add]
    _ = s.count c := by rw [hstart]

end Trimming

/-! ## Letters -/

section Letters

/-- A character that a tag can begin with. -/
def isTagStart (c : Char) : Bool := c == '@' || c.isAlpha

/-- Only the letters `A` to `Z` are changed, and only to the letters `a` to `z`. -/
theorem toLower_eq_or (c : Char) :
    c.toLower = c ∨ (65 ≤ c.toNat ∧ c.toNat ≤ 90 ∧ c.toLower.toNat = c.toNat + 32) := by
  unfold Char.toLower
  split
  · rename_i h
    obtain ⟨h1, h2⟩ := h
    rw [ge_iff_le, UInt32.le_iff_toNat_le] at h1
    rw [UInt32.le_iff_toNat_le] at h2
    right
    simp only [Char.toNat, UInt32.toNat_add]
    simp at *
    omega
  · exact .inl rfl

theorem toLower_eq_colon {c : Char} (h : c.toLower = ':') : c = ':' := by
  rcases toLower_eq_or c with h' | ⟨h1, h2, h3⟩
  · exact h'.symm.trans h
  · rw [h] at h3
    have : ':'.toNat = 58 := rfl
    omega

theorem isTagStart_iff {c : Char} : isTagStart c = true ↔
    c = '@' ∨ (65 ≤ c.toNat ∧ c.toNat ≤ 90) ∨ (97 ≤ c.toNat ∧ c.toNat ≤ 122) := by
  have hupper : c.isUpper = true ↔ 65 ≤ c.toNat ∧ c.toNat ≤ 90 := decide_eq_true_iff
  have hlower : c.isLower = true ↔ 97 ≤ c.toNat ∧ c.toNat ≤ 122 :=
    Bool.and_eq_true_iff.trans (and_congr decide_eq_true_iff decide_eq_true_iff)
  have halpha : c.isAlpha = (c.isUpper || c.isLower) := rfl
  rw [isTagStart, Bool.or_eq_true, beq_iff_eq, halpha, Bool.or_eq_true, hupper, hlower]

theorem isTagStart_of_toLower {c : Char} (h : isTagStart c.toLower = true) : isTagStart c = true := by
  rcases toLower_eq_or c with h' | ⟨h1, h2, -⟩
  · rwa [h'] at h
  · exact isTagStart_iff.2 (.inr (.inl ⟨h1, h2⟩))

theorem isTagStart_of_isBlank {c : Char} (h : isBlank c = true) : isTagStart c = false := by
  rw [← Bool.not_eq_true, isTagStart_iff]
  simp only [isBlank, Bool.or_eq_true, Bool.and_eq_true, decide_eq_true_eq, beq_iff_eq] at h
  rintro (rfl | hletter)
  · revert h
    decide
  · omega

/-- What stands before the text after a word is the word in some case. -/
theorem dropWord?_eq_some {word s rest : Text} (h : dropWord? word s = some rest) :
    s = s.take word.length ++ rest ∧ (s.take word.length).map Char.toLower = word.map Char.toLower := by
  induction word generalizing s with
  | nil => simpa [dropWord?] using h
  | cons w ws ih =>
    cases s with
    | nil => simp [dropWord?] at h
    | cons c s =>
      simp only [dropWord?, beq_iff_eq] at h
      split at h
      · rename_i hc
        obtain ⟨h1, h2⟩ := ih h
        exact ⟨by simpa using h1, by simp [hc, h2]⟩
      · cases h

theorem dropWord?_append {word s : Text} (h : s.map Char.toLower = word.map Char.toLower) (rest : Text) :
    dropWord? word (s ++ rest) = some rest := by
  induction word generalizing s with
  | nil =>
    rw [List.map_nil, List.map_eq_nil_iff] at h
    rw [h]
    rfl
  | cons w ws ih =>
    obtain ⟨c, s, rfl, hc, hs⟩ := List.map_eq_cons_iff.1 h
    rw [List.cons_append, dropWord?, if_pos (beq_iff_eq.2 hc)]
    exact ih hs

/-- A word does not begin with a character that no tag begins with, if it begins with one that a tag can begin with. -/
theorem dropWord?_of_not_isTagStart {w c : Char} (hw : isTagStart w = true) (hc : isTagStart c = false)
    (ws rest : Text) : dropWord? (w :: ws) (c :: rest) = none := by
  rw [dropWord?, if_neg]
  intro heq
  have hlower : isTagStart w.toLower = true := by
    rcases toLower_eq_or w with h | ⟨hlow, hhigh, hcode⟩
    · rwa [h]
    · exact isTagStart_iff.2 (.inr (.inr ⟨by omega, by omega⟩))
  rw [isTagStart_of_toLower ((beq_iff_eq.1 heq).symm ▸ hlower)] at hc
  cases hc

end Letters

section Bytes

@[simp] theorem byteCount_nil : byteCount [] = 0 := rfl

@[simp] theorem byteCount_cons (c : Char) (s : Text) : byteCount (c :: s) = c.utf8Size + byteCount s := rfl

theorem byteCount_append (s t : Text) : (s ++ t).byteCount = s.byteCount + t.byteCount := by
  induction s with
  | nil => exact (Nat.zero_add _).symm
  | cons c s ih =>
    rw [List.cons_append, byteCount_cons, byteCount_cons, ih]
    omega

theorem length_le_byteCount (s : Text) : s.length ≤ s.byteCount := by
  induction s with
  | nil => exact Nat.le_refl 0
  | cons c s ih =>
    have hpos := c.utf8Size_pos
    rw [List.length_cons, byteCount_cons]
    omega

end Bytes

theorem before_append_cons {mark : Char} {s : Text} (h : mark ∉ s) (rest : Text) :
    before mark (s ++ mark :: rest) = s := by
  rw [before, List.takeWhile_append_of_pos fun c hc => ?_]
  · simp
  · simpa using fun heq : c = mark => h (heq ▸ hc)

/-- A mark behind a text without it is the first one, so it stands before any other. -/
theorem eq_or_of_append_cons {mark : Char} {s t x y : Text} (h : mark ∉ s) (heq : s ++ mark :: x = t ++ mark :: y) :
    (s = t ∧ x = y) ∨ ∃ u, t = s ++ mark :: u ∧ x = u ++ mark :: y := by
  rcases List.append_eq_append_iff.1 heq with ⟨u, rfl, hu⟩ | ⟨u, rfl, hu⟩
  · cases u with
    | nil =>
      cases hu
      exact .inl ⟨(List.append_nil s).symm, rfl⟩
    | cons d u =>
      cases hu
      exact .inr ⟨u, rfl, rfl⟩
  · cases u with
    | nil =>
      cases hu
      exact .inl ⟨List.append_nil t, rfl⟩
    | cons d u =>
      cases hu
      exact absurd (by simp) h

theorem occursIn_iff {marker : Text} : ∀ {s : Text}, occursIn marker s = true ↔ marker <:+: s
  | [] => by simp [occursIn, List.isEmpty_iff]
  | c :: rest => by
    rw [occursIn, Bool.or_eq_true, List.isPrefixOf_iff_prefix, occursIn_iff, List.infix_cons_iff]

theorem spaced_cons_cons (first second : Text) (rest : List Text) :
    spaced (first :: second :: rest) = first ++ ' ' :: spaced (second :: rest) := by
  simp [spaced, List.intercalate]

/-- Every text but the first has a space before it. -/
theorem spaced_cons (first : Text) (rest : List Text) : spaced (first :: rest) = first ++ rest.flatMap (' ' :: ·) := by
  induction rest generalizing first with
  | nil => simp [spaced]
  | cons second rest ih => rw [spaced_cons_cons, ih, List.flatMap_cons, List.cons_append]

/-- Each of the texts stands in their row, with nothing or a space behind it. -/
theorem exists_spaced_eq {line : Text} : ∀ {lines : List Text}, line ∈ lines →
    ∃ front behind, spaced lines = front ++ (line ++ behind) ∧ ∀ c ∈ behind.head?, c = ' '
  | [], h => by cases h
  | [only], h => by
    rw [List.mem_singleton.1 h]
    exact ⟨[], [], by simp [spaced], by simp⟩
  | first :: second :: rest, h => by
    rw [spaced_cons_cons]
    rcases List.mem_cons.1 h with rfl | h
    · exact ⟨[], ' ' :: spaced (second :: rest), rfl, by simp⟩
    · obtain ⟨front, behind, heq, hbehind⟩ := exists_spaced_eq h
      exact ⟨first ++ ' ' :: front, behind, by simp [heq], hbehind⟩

theorem infix_spaced {line : Text} {lines : List Text} (h : line ∈ lines) : line <:+: spaced lines := by
  obtain ⟨front, behind, heq, -⟩ := exists_spaced_eq h
  exact ⟨front, behind, by rw [heq, List.append_assoc]⟩

/-- A text is cut at the marks, which are in none of the parts. -/
theorem not_mem_of_mem_splitOn {mark : Char} : ∀ {s part : Text}, part ∈ s.splitOn mark → mark ∉ part
  | [], part, h => by
    rw [List.splitOn, List.splitOnP_nil, List.mem_singleton] at h
    rw [h]
    exact List.not_mem_nil
  | c :: s, part, h => by
    have ih := @not_mem_of_mem_splitOn mark s
    rw [List.splitOn, List.splitOnP_cons_eq_if_modifyHead] at h
    split at h
    · rcases List.mem_cons.1 h with rfl | hpart
      · exact List.not_mem_nil
      · exact ih hpart
    · rename_i hc
      obtain ⟨first, others, hsplit⟩ := List.exists_cons_of_ne_nil (List.splitOnP_ne_nil (· == mark) s)
      rw [hsplit, List.modifyHead_cons] at h
      rw [List.splitOn, hsplit] at ih
      rcases List.mem_cons.1 h with rfl | hpart
      · intro hmem
        rcases List.mem_cons.1 hmem with rfl | hmem
        · exact hc (beq_self_eq_true mark)
        · exact ih List.mem_cons_self hmem
      · exact ih (List.mem_cons_of_mem _ hpart)

end Text
end DocLint
