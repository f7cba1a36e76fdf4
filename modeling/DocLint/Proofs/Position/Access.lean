import DocLint.Proofs.Text
import DocLint.Proofs.Text.Bytes

/-!
# Access by position

The readers of this library take a list apart from its front, and no step of them can fail. A program that goes through
a list by positions can fail at every access: a position may lie outside of the list (`item`, `slice`), a text may be cut
inside of a character (`cut`, `textSlice`), a difference may be below zero (`minus`), and a number may not fit into its
type (`int32`). Such programs are computations in `Checked`, which end with a result or with the `Fault` of their first
access that fails.

Positions in a text are counted in bytes. A cut succeeds exactly between two characters (`cut_eq_ok_iff`), where it cuts
the bytes that the text is written with as well (`bytes_of_cut`).
-/

namespace DocLint
namespace Positional

open Text (byteCount byteCount_cons byteCount_append)

/-- Why an access fails. -/
inductive Fault
  /-- A position lies outside of the list, or a slice ends before it begins. -/
  | outOfRange
  /-- A text is cut inside of a character. -/
  | insideCharacter
  /-- A number does not fit into its type. -/
  | overflow
  /-- A round of a loop does not advance. -/
  | standstill
  deriving DecidableEq, Repr

/-- The result of a program, or the fault that stops it. -/
abbrev Checked := Except Fault

@[simp] theorem ok_bind {α β : Type} (a : α) (f : α → Checked β) : ((Except.ok a : Checked α) >>= f) = f a := rfl

section Lists

variable {α : Type}

/-- The element at a position. -/
def item (xs : List α) (i : Nat) : Checked α :=
  match xs[i]? with
  | some x => .ok x
  | none => .error .outOfRange

/-- The elements from position `i` up to position `j`. -/
def slice (xs : List α) (i j : Nat) : Checked (List α) :=
  if i ≤ j ∧ j ≤ xs.length then .ok ((xs.take j).drop i) else .error .outOfRange

theorem item_append (front : List α) (x : α) (back : List α) : item (front ++ x :: back) front.length = .ok x := by
  simp [item]

theorem slice_append (front middle back : List α) :
    slice (front ++ middle ++ back) front.length (front.length + middle.length) = .ok middle := by
  rw [slice, if_pos ⟨by omega, by simp⟩, ← List.length_append, List.take_left, List.drop_left]

theorem slice_to_end {xs : List α} {i : Nat} (h : i ≤ xs.length) : slice xs i xs.length = .ok (xs.drop i) := by
  rw [slice, if_pos ⟨h, Nat.le_refl _⟩, List.take_length]

theorem slice_front (front back : List α) : slice (front ++ back) 0 front.length = .ok front := by
  have h := slice_append [] front back
  rwa [List.nil_append, List.length_nil, Nat.zero_add] at h

end Lists

section Texts

/-- The text before the byte `n` and the text from this byte on. -/
def cut : (n : Nat) → Text → Checked (Text × Text)
  | 0, s => .ok ([], s)
  | _ + 1, [] => .error .outOfRange
  | n + 1, c :: rest =>
    if c.utf8Size ≤ n + 1 then do
      let (front, back) ← cut (n + 1 - c.utf8Size) rest
      return (c :: front, back)
    else .error .insideCharacter

/-- The text from the byte `i` up to the byte `j`. -/
def textSlice (s : Text) (i j : Nat) : Checked Text :=
  if i ≤ j then do
    let (front, _) ← cut j s
    let (_, middle) ← cut i front
    return middle
  else .error .outOfRange

theorem cut_append (front back : Text) : cut front.byteCount (front ++ back) = .ok (front, back) := by
  induction front with
  | nil => rw [Text.byteCount_nil, List.nil_append, cut]
  | cons c front ih =>
    obtain ⟨n, hn⟩ := Nat.exists_eq_add_one_of_ne_zero (Nat.pos_iff_ne_zero.1 c.utf8Size_pos)
    have hcount : byteCount (c :: front) = n + byteCount front + 1 := by rw [byteCount_cons, hn]; omega
    have hrest : n + byteCount front + 1 - c.utf8Size = byteCount front := by omega
    rw [hcount, List.cons_append, cut, if_pos (by omega), hrest, ih]
    rfl

/-- A text can be cut only between two characters. -/
theorem cut_eq_ok_iff {n : Nat} {s front back : Text} :
    cut n s = .ok (front, back) ↔ s = front ++ back ∧ front.byteCount = n := by
  constructor
  · intro h
    induction n, s using cut.induct generalizing front with
    | case1 s =>
      rw [cut] at h
      cases h
      exact ⟨rfl, rfl⟩
    | case2 n => cases h
    | case3 n c rest hsize ih =>
      rw [cut, if_pos hsize] at h
      cases hcut : cut (n + 1 - c.utf8Size) rest with
      | error fault =>
        rw [hcut] at h
        cases h
      | ok halves =>
        rw [hcut] at h
        cases h
        obtain ⟨hrest, hcount⟩ := ih hcut
        exact ⟨by rw [hrest, List.cons_append], by rw [byteCount_cons, hcount]; omega⟩
    | case4 n c rest hsize =>
      rw [cut, if_neg hsize] at h
      cases h
  · rintro ⟨rfl, rfl⟩
    exact cut_append front back

/-- What a text is cut into has the bytes before the cut and those behind it. -/
theorem bytes_of_cut {n : Nat} {s front back : Text} (h : cut n s = .ok (front, back)) :
    front.bytes = s.bytes.take n ∧ back.bytes = s.bytes.drop n := by
  obtain ⟨rfl, rfl⟩ := cut_eq_ok_iff.1 h
  have hlength : front.byteCount = front.bytes.length := by
    clear h
    induction front with
    | nil => rfl
    | cons c front ih => rw [byteCount_cons, ih, Text.bytes_cons, List.length_append, String.length_utf8EncodeChar]
  rw [Text.bytes_append, hlength, List.take_left, List.drop_left]
  exact ⟨rfl, rfl⟩

theorem textSlice_append (front middle back : Text) :
    textSlice (front ++ middle ++ back) front.byteCount (front.byteCount + middle.byteCount) = .ok middle := by
  rw [textSlice, if_pos (Nat.le_add_right _ _), ← byteCount_append, cut_append, ok_bind]
  dsimp only
  rw [cut_append, ok_bind]
  rfl

end Texts

section Numbers

/-- The difference of two numbers of a type without negative numbers. -/
def minus (m n : Nat) : Checked Nat := if n ≤ m then .ok (m - n) else .error .overflow

/-- Numbers of 32 bits with a sign are below `2 ^ 31`. -/
def int32Bound : Nat := Nat.pow 2 31

/-- The number as one of 32 bits with a sign. -/
def int32 (n : Int) : Checked Int := if -int32Bound ≤ n ∧ n < int32Bound then .ok n else .error .overflow

theorem minus_eq {m n : Nat} (h : n ≤ m) : minus m n = .ok (m - n) := if_pos h

theorem int32_eq {n : Int} (h : n.natAbs < int32Bound) : int32 n = .ok n := if_pos (by omega)

end Numbers

end Positional
end DocLint
