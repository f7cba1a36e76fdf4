import DocLint.Proofs.Parameter.InStep
import DocLint.Proofs.Position.Access

/-!
# Parameters by bytes

A parameter list can be read off a signature by the bytes at which it begins and ends
(`Positional.parameterList`), and cut into its parts by the bytes of its outer commas (`Positional.splitTopLevel`). The
list begins at an opening parenthesis, so the closing ones never outnumber the opening ones before the last; and a
parenthesis and a comma have one byte, so that the cuts next to them are between characters. Hence both give what the
readers of `Parameter` give.
-/

namespace DocLint
namespace Positional

open Parameter (isOpening isClosing list? parts partsFrom prepend prepend_cons untilClose)
open Text (byteCount byteCount_cons byteCount_append)

/-! ## The list -/

/-- The byte of the first character `mark` in a text that begins at the byte `offset`. -/
def findFrom (mark : Char) : (offset : Nat) → Text → Option Nat
  | _, [] => none
  | offset, c :: rest => if c = mark then some offset else findFrom mark (offset + c.utf8Size) rest

/-- The byte of the parenthesis that closes the `depth` open ones, in a text that begins at the byte `offset`. -/
def closeFrom : (depth offset : Nat) → Text → Checked (Option Nat)
  | _, _, [] => return none
  | depth, offset, c :: rest =>
    if c = '(' then closeFrom (depth + 1) (offset + c.utf8Size) rest
    else if c = ')' then do
      let depth ← minus depth 1
      if depth = 0 then return some offset else closeFrom depth (offset + c.utf8Size) rest
    else closeFrom depth (offset + c.utf8Size) rest

/-- The text between the first opening parenthesis and the one that closes it. -/
def parameterList (signature : Text) : Checked (Option Text) := do
  match findFrom '(' 0 signature with
  | none => return none
  | some opening => do
    let rest ← textSlice signature opening signature.byteCount
    match ← closeFrom 0 0 rest with
    | none => return none
    | some i => do
      let list ← textSlice signature (opening + 1) (opening + i)
      return some list

section List

theorem findFrom_of_not_mem {mark : Char} {s : Text} (h : mark ∉ s) (offset : Nat) : findFrom mark offset s = none := by
  induction s generalizing offset with
  | nil => rfl
  | cons c s ih =>
    obtain ⟨hc, hs⟩ := not_or.1 (mt List.mem_cons.2 h)
    rw [findFrom, if_neg (Ne.symm hc), ih hs]

theorem findFrom_append {mark : Char} {front : Text} (h : mark ∉ front) (rest : Text) (offset : Nat) :
    findFrom mark offset (front ++ mark :: rest) = some (offset + front.byteCount) := by
  induction front generalizing offset with
  | nil => exact if_pos rfl
  | cons c front ih =>
    obtain ⟨hc, hfront⟩ := not_or.1 (mt List.mem_cons.2 h)
    rw [List.cons_append, findFrom, if_neg (Ne.symm hc), ih hfront, byteCount_cons, Nat.add_assoc]

/-- Behind an opening parenthesis, as many are open as the search has counted, and never fewer than one. -/
theorem closeFrom_eq (s : Text) (depth offset : Nat) :
    closeFrom (depth + 1) offset s = .ok ((untilClose depth s).map fun inside => offset + inside.byteCount) := by
  induction s generalizing depth offset with
  | nil => rfl
  | cons c s ih =>
    have hpassed : ∀ next, closeFrom (next + 1) (offset + c.utf8Size) s =
        .ok (((untilClose next s).map (c :: ·)).map fun inside => offset + byteCount inside) := by
      intro next
      rw [ih, Option.map_map]
      simp only [Function.comp_def, Text.byteCount, Nat.add_assoc]
    simp only [closeFrom, untilClose]
    split
    · exact hpassed (depth + 1)
    · split
      · rw [minus_eq (Nat.le_add_left 1 depth), ok_bind, Nat.add_sub_cancel]
        cases depth with
        | zero => rfl
        | succ depth => exact hpassed depth
      · exact hpassed depth

/-- **No access fails on the way to a parameter list.** -/
theorem parameterList_eq (signature : Text) : parameterList signature = .ok (list? signature) := by
  by_cases hopen : '(' ∈ signature
  · obtain ⟨front, rest, rfl, hfront⟩ := List.eq_append_cons_of_mem hopen
    rw [parameterList, findFrom_append hfront, Parameter.list?_append hfront]
    have hrest := textSlice_append front ('(' :: rest) []
    rw [List.append_nil, ← byteCount_append] at hrest
    dsimp only
    have hsize : ('(' : Char).utf8Size = 1 := rfl
    rw [Nat.zero_add, hrest, ok_bind, closeFrom, if_pos rfl, Nat.zero_add, hsize, closeFrom_eq]
    cases hlist : untilClose 0 rest with
    | none => rfl
    | some inside =>
      obtain ⟨behind, rfl, -⟩ := Parameter.untilClose_eq_some_iff.1 hlist
      have hslice := textSlice_append (front ++ ['(']) inside (')' :: behind)
      rw [byteCount_append, byteCount_cons, Text.byteCount_nil, hsize, Nat.add_assoc, List.append_assoc,
        List.append_assoc] at hslice
      rw [Option.map_some, ok_bind]
      exact congrArg (Except.map some) hslice
  · rw [parameterList, findFrom_of_not_mem hopen]
    exact congrArg Except.ok (Parameter.list?_of_not_mem hopen).symm

end List

/-! ## The parts -/

/-- The parts of `list` from the byte `start` on, of which those up to the byte `offset` are passed; they leave `depth`
brackets open. -/
def splitFrom (list : Text) : (depth start offset : Nat) → Text → Checked (List Text)
  | _, start, _, [] => do
    let part ← textSlice list start list.byteCount
    return [part]
  | depth, start, offset, c :: rest =>
    if isOpening c then splitFrom list (depth + 1) start (offset + c.utf8Size) rest
    else if isClosing c then splitFrom list (depth - 1) start (offset + c.utf8Size) rest
    else if c = ',' ∧ depth = 0 then do
      let part ← textSlice list start offset
      let others ← splitFrom list depth (offset + 1) (offset + c.utf8Size) rest
      return part :: others
    else splitFrom list depth start (offset + c.utf8Size) rest

/-- The parts of a parameter list, trimmed; empty ones are dropped. -/
def splitTopLevel (list : Text) : Checked (List Text) := do
  let cuts ← splitFrom list 0 0 0 list
  return (cuts.map Text.trim).filter fun part => !part.isEmpty

/-- The parameters that a signature declares. -/
def readParameters (signature : Text) : Checked (List Parameter) := do
  match ← parameterList signature with
  | none => return []
  | some list => do
    let cuts ← splitTopLevel list
    return cuts.filterMap Parameter.ofText?

section Parts

theorem prepend_append (s t : Text) (parts : List Text) : prepend (s ++ t) parts = prepend s (prepend t parts) :=
  List.foldr_append

/-- Of a list, the parts before `done` are cut off, and `current` is the part of the next one that is passed. -/
theorem splitFrom_eq (rest done current : Text) (depth : Nat) :
    splitFrom (done ++ (current ++ rest)) depth done.byteCount (done.byteCount + current.byteCount) rest =
      .ok (prepend current (partsFrom depth rest)) := by
  induction rest generalizing done current depth with
  | nil =>
    have hslice := textSlice_append done current []
    rw [List.append_nil, ← byteCount_append] at hslice
    rw [splitFrom, List.append_nil, hslice, partsFrom, prepend_cons, List.append_nil]
    rfl
  | cons c rest ih =>
    have hpassed : ∀ next, splitFrom (done ++ (current ++ c :: rest)) next done.byteCount
        (done.byteCount + current.byteCount + c.utf8Size) rest =
          .ok (prepend current (Text.consHead c (partsFrom next rest))) := by
      intro next
      have hnext := ih done (current ++ [c]) next
      rw [prepend_append, List.append_assoc, byteCount_append, byteCount_cons, Text.byteCount_nil, Nat.add_zero,
        ← Nat.add_assoc] at hnext
      exact hnext
    simp only [splitFrom, partsFrom]
    split
    · exact hpassed (depth + 1)
    · split
      · exact hpassed (depth - 1)
      · split
        · rename_i hcomma
          obtain ⟨rfl, rfl⟩ := hcomma
          have hslice := textSlice_append done current (',' :: rest)
          have hnext := ih (done ++ (current ++ [','])) [] 0
          rw [byteCount_append, byteCount_append, byteCount_cons, Text.byteCount_nil, Nat.add_zero, Nat.add_zero,
            List.nil_append, List.append_assoc, List.append_assoc, ← Nat.add_assoc] at hnext
          rw [List.append_assoc] at hslice
          have hsize : (',' : Char).utf8Size = 1 := rfl
          rw [hsize] at hnext ⊢
          rw [hslice, ok_bind, prepend_cons, List.append_nil]
          exact congrArg (fun others => others >>= fun others => return current :: others) hnext
        · exact hpassed depth

theorem splitTopLevel_eq (list : Text) : splitTopLevel list = .ok (parts list) := by
  have hsplit := splitFrom_eq list [] [] 0
  rw [splitTopLevel]
  exact congrArg (fun cuts => cuts >>= fun cuts => return (cuts.map Text.trim).filter fun part => !part.isEmpty) hsplit

/-- **No access fails on the way to the parameters of a signature.** -/
theorem readParameters_eq (signature : Text) : readParameters signature = .ok (Parameter.ofSignature signature) := by
  rw [readParameters, parameterList_eq, ok_bind, Parameter.ofSignature]
  cases list? signature with
  | none => rfl
  | some list =>
    dsimp only
    rw [splitTopLevel_eq]
    rfl

end Parts

end Positional
end DocLint
