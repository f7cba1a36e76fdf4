import DocLint.Proofs.Parameter.Bracket

/-!
# Whole parts of a list

A text that closes the brackets that it opens, with no comma outside of them, is whole (`Parameter.IsWhole`). Whole texts
can be put together to whole texts, and a list of them, written with commas, is cut between them and nowhere else
(`Parameter.parts_commaSeparated`).
-/

namespace DocLint
namespace Parameter

open Text (isBlank trim)

/-! ## Whole texts -/

section Whole

/-- The text closes the brackets that it opens and has no comma outside of them. -/
structure IsWhole (s : Text) : Prop where
  closed : readBrackets [] s = some []
  uncut : hasOuterComma [] s = false

instance (s : Text) : Decidable (IsWhole s) :=
  decidable_of_iff (readBrackets [] s = some [] ∧ hasOuterComma [] s = false)
    ⟨fun ⟨hclosed, huncut⟩ => ⟨hclosed, huncut⟩, fun h => ⟨h.closed, h.uncut⟩⟩

variable {s t : Text}

theorem isWhole_nil : IsWhole [] := ⟨rfl, rfl⟩

theorem IsWhole.append (hs : IsWhole s) (ht : IsWhole t) : IsWhole (s ++ t) where
  closed := by rw [readBrackets_append, hs.closed, Option.bind_some, ht.closed]
  uncut := by
    rw [hasOuterComma_append, hs.uncut, hs.closed, Option.any_some, ht.uncut]
    rfl

theorem IsWhole.flatMap {α : Type} {f : α → Text} : ∀ {xs : List α}, (∀ x ∈ xs, IsWhole (f x)) → IsWhole (xs.flatMap f)
  | [], _ => isWhole_nil
  | x :: xs, h => by
    obtain ⟨hx, hxs⟩ := List.forall_mem_cons.1 h
    exact hx.append (IsWhole.flatMap hxs)

/-- Inside of brackets no comma is an outer one. -/
theorem hasOuterComma_inside (h : ∀ c ∈ s, isOpening c = false ∧ isClosing c = false) {awaited : List Char}
    (hawaited : awaited ≠ []) : hasOuterComma awaited s = false := by
  induction s with
  | nil => rfl
  | cons c s ih =>
    obtain ⟨hc, hs⟩ := List.forall_mem_cons.1 h
    simp [hasOuterComma, readBracket_of_plain hc.1 hc.2, hawaited, ih hs]

/-- A text without brackets, in a pair of array brackets. -/
def bracketed (x : Text) : Text := '[' :: (x ++ [']'])

theorem isWhole_bracketed {x : Text} (h : ∀ c ∈ x, isOpening c = false ∧ isClosing c = false) : IsWhole (bracketed x) := by
  have hopen : readBracket [] '[' = some [']'] := rfl
  have hclose : readBracket [']'] ']' = some [] := rfl
  constructor
  · rw [bracketed, readBrackets_cons, hopen, Option.bind_some, readBrackets_append, readBrackets_of_plain h,
      Option.bind_some, readBrackets_cons, hclose]
    rfl
  · have hinside : hasOuterComma [']'] x = false := hasOuterComma_inside h (List.cons_ne_nil _ _)
    have hrest : hasOuterComma [']'] (x ++ [']']) = false := by
      rw [hasOuterComma_append, hinside, readBrackets_of_plain h]
      rfl
    simp [bracketed, hasOuterComma, hopen, hrest]

end Whole

/-! ## Lists -/

section Lists

/-- The texts in order, with a comma and a space between neighbours. -/
def commaSeparated (ss : List Text) : Text := List.intercalate ", ".toList ss

theorem commaSeparated_cons_cons (s t : Text) (ss : List Text) :
    commaSeparated (s :: t :: ss) = s ++ ',' :: ' ' :: commaSeparated (t :: ss) := by
  rw [commaSeparated, List.intercalate_cons_cons, List.append_assoc]
  rfl

theorem readBrackets_commaSeparated : ∀ {ss : List Text}, (∀ s ∈ ss, IsWhole s) →
    readBrackets [] (commaSeparated ss) = some []
  | [], _ => rfl
  | [s], h => by simpa [commaSeparated] using (h s List.mem_cons_self).closed
  | s :: t :: ss, h => by
    obtain ⟨hs, hrest⟩ := List.forall_mem_cons.1 h
    rw [commaSeparated_cons_cons, readBrackets_append, hs.closed, Option.bind_some]
    exact readBrackets_commaSeparated hrest

/-- **A list is cut between whole texts** and nowhere else. -/
theorem parts_commaSeparated : ∀ {ss : List Text}, (∀ s ∈ ss, IsWhole s ∧ trim s ≠ []) →
    parts (commaSeparated ss) = ss.map trim
  | [], _ => rfl
  | [s], h => by
    obtain ⟨hs, hne⟩ := h s List.mem_cons_self
    simpa [commaSeparated] using parts_whole hs.closed hs.uncut hne
  | s :: t :: ss, h => by
    obtain ⟨⟨hs, hne⟩, hrest⟩ := List.forall_mem_cons.1 h
    have hspace : ∀ c ∈ [' '], isBlank c = true := List.forall_mem_singleton.2 rfl
    have hgap : parts (' ' :: commaSeparated (t :: ss)) = parts (commaSeparated (t :: ss)) :=
      parts_append_of_blank hspace _
    rw [commaSeparated_cons_cons, parts_comma hs.closed hs.uncut hne, hgap, parts_commaSeparated hrest]
    rfl

end Lists

end Parameter
end DocLint
