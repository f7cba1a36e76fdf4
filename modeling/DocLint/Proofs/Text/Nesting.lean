import Mathlib.Data.List.Infix

/-!
# Nested marks

A list of marks and other things is read with the number of marks that are open (`IsNested`). A reader that counts the
open marks cuts a list at the mark that closes the first of them (`IsCutAt`). An element before that mark opens a mark,
closes one, or does neither, and stands before what is cut off behind it (`isCutAt_opening_iff`, `isCutAt_closing_iff`,
`isCutAt_other_iff`).
-/

namespace DocLint

/-- The list closes `depth` marks more than it opens, and no beginning of it closes any further one. -/
structure IsNested {α : Type} [DecidableEq α] (opening closing : α) (depth : Nat) (s : List α) : Prop where
  total : s.count closing = depth + s.count opening
  never : ∀ front, front <+: s → front.count closing ≤ depth + front.count opening

/-- Of `depth + 1` open marks, the last one to be closed is closed between `inside` and `after`. -/
structure IsCutAt {α : Type} [DecidableEq α] (opening closing : α) (depth : Nat) (s inside after : List α) : Prop where
  eq : s = inside ++ closing :: after
  nested : IsNested opening closing depth inside

variable {α : Type} [DecidableEq α] {opening closing a : α} {depth next : Nat} {s inside after : List α}

/-! ## One element more -/

section Nesting

theorem isNested_nil_iff : IsNested opening closing depth [] ↔ depth = 0 := by
  constructor
  · intro h
    have htotal := h.total
    rw [List.count_nil, List.count_nil] at htotal
    omega
  · rintro rfl
    refine ⟨rfl, fun front hfront => ?_⟩
    rw [List.prefix_nil.1 hfront]
    exact Nat.le_refl _

/-- An element opens or closes a mark before the others do. -/
theorem isNested_cons_iff (a : α) : IsNested opening closing depth (a :: s) ↔
    [a].count closing ≤ depth + [a].count opening ∧
      IsNested opening closing (depth + [a].count opening - [a].count closing) s := by
  have hcons : ∀ b (rest : List α), (a :: rest).count b = [a].count b + rest.count b := fun b rest => by
    rw [← List.count_append, List.singleton_append]
  constructor
  · intro h
    have hfirst := h.never [a] ⟨s, rfl⟩
    have htotal := h.total
    rw [hcons _ s, hcons _ s] at htotal
    refine ⟨hfirst, by omega, fun front hfront => ?_⟩
    have hnever := h.never (a :: front) ((List.prefix_cons_inj a).2 hfront)
    rw [hcons _ front, hcons _ front] at hnever
    omega
  · rintro ⟨hfirst, h⟩
    have htotal := h.total
    refine ⟨by rw [hcons _ s, hcons _ s]; omega, fun front hfront => ?_⟩
    rcases List.prefix_cons_iff.1 hfront with rfl | ⟨rest, rfl, hrest⟩
    · exact Nat.zero_le _
    · have hnever := h.never rest hrest
      rw [hcons _ rest, hcons _ rest]
      omega

theorem isNested_opening_iff (hne : opening ≠ closing) :
    IsNested opening closing depth (opening :: s) ↔ IsNested opening closing (depth + 1) s := by
  rw [isNested_cons_iff, List.count_singleton_self, List.count_singleton, beq_false_of_ne hne]
  exact and_iff_right (Nat.zero_le _)

theorem isNested_closing_iff (hne : opening ≠ closing) :
    IsNested opening closing (depth + 1) (closing :: s) ↔ IsNested opening closing depth s := by
  rw [isNested_cons_iff, List.count_singleton_self, List.count_singleton, beq_false_of_ne hne.symm]
  exact and_iff_right (Nat.le_add_left _ _)

/-- Without an open mark none can be closed. -/
theorem not_isNested_zero_closing (hne : opening ≠ closing) : ¬ IsNested opening closing 0 (closing :: s) := by
  rw [isNested_cons_iff, List.count_singleton_self, List.count_singleton, beq_false_of_ne hne.symm]
  exact fun h => absurd h.1 (by decide)

theorem isNested_other_iff (hopening : a ≠ opening) (hclosing : a ≠ closing) :
    IsNested opening closing depth (a :: s) ↔ IsNested opening closing depth s := by
  rw [isNested_cons_iff, List.count_singleton, List.count_singleton, beq_false_of_ne hopening,
    beq_false_of_ne hclosing]
  exact and_iff_right (Nat.zero_le _)

end Nesting

/-! ## Cuts at the mark that closes the first -/

section Cuts

theorem not_isCutAt_nil : ¬ IsCutAt opening closing depth [] inside after := fun h => by simpa using h.eq

/-- With no other mark open, a closing mark is the cut. -/
theorem isCutAt_zero_closing_iff (hne : opening ≠ closing) :
    IsCutAt opening closing 0 (closing :: s) inside after ↔ inside = [] ∧ after = s := by
  constructor
  · rintro ⟨heq, hinside⟩
    cases inside with
    | nil => exact ⟨rfl, (List.cons.inj heq).2.symm⟩
    | cons b front =>
      rw [← (List.cons.inj heq).1] at hinside
      exact absurd hinside (not_isNested_zero_closing hne)
  · rintro ⟨rfl, rfl⟩
    exact ⟨rfl, isNested_nil_iff.2 rfl⟩

/-- An element before the cut is passed, with so many open marks behind it. -/
theorem isCutAt_cons_iff (hnested : ∀ inside, IsNested opening closing depth (a :: inside) ↔
    IsNested opening closing next inside) (hlast : a = closing → depth ≠ 0) :
    IsCutAt opening closing depth (a :: s) inside after ↔
      ∃ front, IsCutAt opening closing next s front after ∧ a :: front = inside := by
  constructor
  · rintro ⟨heq, hinside⟩
    cases inside with
    | nil => exact absurd (isNested_nil_iff.1 hinside) (hlast (List.cons.inj heq).1)
    | cons b front =>
      obtain ⟨rfl, hrest⟩ := List.cons.inj heq
      exact ⟨front, ⟨hrest, (hnested front).1 hinside⟩, rfl⟩
  · rintro ⟨front, ⟨rfl, hfront⟩, rfl⟩
    exact ⟨rfl, (hnested front).2 hfront⟩

theorem isCutAt_opening_iff (hne : opening ≠ closing) : IsCutAt opening closing depth (opening :: s) inside after ↔
    ∃ front, IsCutAt opening closing (depth + 1) s front after ∧ opening :: front = inside :=
  isCutAt_cons_iff (fun _ => isNested_opening_iff hne) (absurd · hne)

theorem isCutAt_closing_iff (hne : opening ≠ closing) : IsCutAt opening closing (depth + 1) (closing :: s) inside after ↔
    ∃ front, IsCutAt opening closing depth s front after ∧ closing :: front = inside :=
  isCutAt_cons_iff (fun _ => isNested_closing_iff hne) fun _ => Nat.succ_ne_zero depth

theorem isCutAt_other_iff (hopening : a ≠ opening) (hclosing : a ≠ closing) :
    IsCutAt opening closing depth (a :: s) inside after ↔
      ∃ front, IsCutAt opening closing depth s front after ∧ a :: front = inside :=
  isCutAt_cons_iff (fun _ => isNested_other_iff hopening hclosing) (absurd · hclosing)

end Cuts
end DocLint
