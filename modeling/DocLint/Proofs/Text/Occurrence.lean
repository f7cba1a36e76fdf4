import Mathlib.Data.List.Infix
import DocLint.Text.Class
import DocLint.Proofs.Text

/-!
# How often a text holds a marker

A marker such as a header tag is a sign with a word behind it. It occurs where the sign stands and the word begins the
word that follows (`Text.isPrefixOf_cons_eq`). So characters that are not the sign add no occurrence
(`Text.occurrences_append_of_not_mem`), and how often the marker occurs before the end of a text does not depend on
what follows the word that the rest begins with (`Text.occurrences_append_add`).
-/

namespace DocLint
namespace Text

/-- How many ends of the text begin with `marker`. -/
def occurrences (marker s : Text) : Nat := s.tails.countP (marker.isPrefixOf ·)

theorem occurrences_cons (marker : Text) (c : Char) (s : Text) :
    occurrences marker (c :: s) = occurrences marker s + if marker.isPrefixOf (c :: s) then 1 else 0 := by
  rw [occurrences, List.tails_cons, List.countP_cons, occurrences]

theorem occurrences_eq_zero_iff {marker s : Text} : occurrences marker s = 0 ↔ occursIn marker s = false := by
  rw [← Bool.not_eq_true, occursIn_iff, List.infix_iff_prefix_suffix, occurrences, List.countP_eq_zero]
  simp only [List.mem_tails, List.isPrefixOf_iff_prefix, not_exists, not_and]
  exact forall_congr' fun t => ⟨fun h hp hs => h hs hp, fun h hs hp => h hp hs⟩

/-- What is in front of two texts with the same first word leaves them so. -/
theorem leadingWord_append_congr (s : Text) {t t' : Text} (h : leadingWord t = leadingWord t') :
    leadingWord (s ++ t) = leadingWord (s ++ t') := by
  have hword : t.takeWhile isWordChar = t'.takeWhile isWordChar := h
  rw [leadingWord, leadingWord, List.takeWhile_append, List.takeWhile_append, hword]

theorem leadingWord_cons_of_not {c : Char} (h : isWordChar c = false) (s : Text) : leadingWord (c :: s) = [] := by
  simp [leadingWord, h]

section Sign

variable {sign : Char} {word s t t' : Text}

/-- Characters other than the sign hold no marker. -/
theorem occurrences_append_of_not_mem (h : sign ∉ s) :
    occurrences (sign :: word) (s ++ t) = occurrences (sign :: word) t := by
  induction s with
  | nil => rfl
  | cons c s ih =>
    have hne : sign ≠ c := List.ne_of_not_mem_cons h
    have hno : (sign :: word).isPrefixOf (c :: (s ++ t)) = false := by simp [List.isPrefixOf, hne]
    rw [List.cons_append, occurrences_cons, hno, ih (List.not_mem_of_not_mem_cons h)]
    rfl

/-- The marker stands at the sign when its word begins the word behind it. -/
theorem isPrefixOf_cons_eq (hword : ∀ c ∈ word, isWordChar c = true) (c : Char) (s : Text) :
    (sign :: word).isPrefixOf (c :: s) = (sign == c && word.isPrefixOf (leadingWord s)) := by
  rw [List.isPrefixOf]
  congr 1
  rw [Bool.eq_iff_iff, List.isPrefixOf_iff_prefix, List.isPrefixOf_iff_prefix]
  exact ⟨fun h => prefix_takeWhile h hword, fun h => h.trans (List.takeWhile_prefix _)⟩

/-- Two texts with the same first word may stand for each other behind a text, but for the markers in them. -/
theorem occurrences_append_add (hword : ∀ c ∈ word, isWordChar c = true) (h : leadingWord t = leadingWord t') :
    occurrences (sign :: word) (s ++ t) + occurrences (sign :: word) t' =
      occurrences (sign :: word) (s ++ t') + occurrences (sign :: word) t := by
  induction s with
  | nil => exact Nat.add_comm _ _
  | cons c s ih =>
    rw [List.cons_append, List.cons_append, occurrences_cons, occurrences_cons, isPrefixOf_cons_eq hword,
      isPrefixOf_cons_eq hword, leadingWord_append_congr s h]
    omega

end Sign
end Text
end DocLint
