import DocLint.Proofs.FileHeader.Retagging

/-!
# Counting what a pass changes

A count of changes that adds up along a line (`Tally`) comes to as much for a pass as its matches that count, for a pass
that goes through the line (`Tally.replaceAll`) and for one that stops at its first match (`Tally.replaceFirst`). The
colons that are lost are such a count: each match that is renewed loses one (`TagReader.count_replaceAll`).
-/

namespace DocLint

/-! ## Counts of changes -/

/-- A count of the changes from one text to another, `R n atStart old new`, that adds up along a line: what stands
before both texts, which are then not at the start, changes nothing, and changes made one after another add up. -/
structure Tally (R : (n : Nat) → (atStart : Bool) → (old new : Text) → Prop) : Prop where
  refl : ∀ atStart s, R 0 atStart s s
  append : ∀ {n atStart} (s : Text) {old new}, R n false old new → R n atStart (s ++ old) (s ++ new)
  trans : ∀ {k n atStart s t u}, R k atStart s t → R n atStart t u → R (k + n) atStart s u

namespace Tally

variable {R : Nat → Bool → Text → Text → Prop} {reader : TagReader} {replacement : TagMatch → Text}
  {changes : TagMatch → Bool} (hR : Tally R) (hr : TagReader.Sound reader)
  (hmatch : ∀ {atStart s m}, reader atStart s = some m → ∀ t,
    R (if changes m then 1 else 0) atStart (m.source ++ t) (replacement m ++ t))

include hR hr hmatch

/-- **A pass changes as much as its matches do.** -/
theorem replaceAll (line : Text) :
    R ((reader.hits line).countP changes) true line (reader.replaceAll replacement line) := by
  rw [TagReader.hits_eq, TagReader.replaceAll_eq]
  refine TagReader.pieces_induction hr (motive := fun atStart s ps =>
    R ((ps.filterMap TagReader.Piece.hit?).countP changes) atStart s
      (ps.flatMap (TagReader.Piece.replaced replacement))) (fun atStart => hR.refl atStart []) ?_ ?_ true line
  · intro atStart m ps hread _ ih
    have hhits : (TagReader.Piece.found m :: ps).filterMap TagReader.Piece.hit? =
      m :: ps.filterMap TagReader.Piece.hit? := rfl
    rw [hhits, List.countP_cons]
    exact hR.trans (hR.append m.source ih) (hmatch hread _)
  · intro atStart c rest ps ih
    exact hR.append [c] ih

theorem replaceFirstFrom : ∀ (atStart : Bool) (line : Text),
    R ((((reader.piecesFrom 0 atStart line).filterMap TagReader.Piece.hit?).take 1).countP changes) atStart line
      (reader.replaceFirstFrom replacement atStart line)
  | atStart, [] => hR.refl atStart []
  | atStart, c :: rest => by
    unfold TagReader.replaceFirstFrom
    split
    · rename_i m hm
      obtain ⟨heq, -⟩ := hr hm
      have hhits : ((TagReader.Piece.found m :: reader.piecesFrom 0 false m.after).filterMap
        TagReader.Piece.hit?).take 1 = [m] := rfl
      rw [TagReader.piecesFrom_found hr hm, hhits, List.countP_cons, List.countP_nil, Nat.zero_add, heq]
      exact hmatch hm m.after
    · rename_i hm
      rw [TagReader.piecesFrom_plain hm]
      exact hR.append [c] (replaceFirstFrom false rest)

/-- A pass that stops at its first match changes as much as that match does. -/
theorem replaceFirst (line : Text) :
    R (((reader.hits line).take 1).countP changes) true line (reader.replaceFirst replacement line) := by
  rw [TagReader.hits_eq]
  exact replaceFirstFrom hR hr hmatch true line

end Tally

/-! ## Colons -/

/-- Colons that are taken add up. -/
theorem tally_colons : Tally fun n _ old new => old.count ':' = new.count ':' + n where
  refl _ _ := rfl
  append {_ _} s {old new} h := by rw [List.count_append, List.count_append, h, Nat.add_assoc]
  trans h h' := by omega

/-- A renewed match has lost its colon. -/
theorem TagMatch.Spelled.count_append {m : TagMatch} (hm : m.Spelled) {gap : Text} (hgap : gap = m.gap ∨ gap = [' '])
    (t : Text) : (m.source ++ t).count ':' = (m.renewed gap ++ t).count ':' + 1 := by
  rw [List.count_append, List.count_append, Retagged.count_source hm,
    Retagged.count_renewed m (Retagged.isBlank_of_gap hm hgap)]
  omega

/-- A pass that renews every match takes as many colons as it finds matches. -/
theorem TagReader.count_replaceAll {reader : TagReader} (hr : Sound reader) {gap : TagMatch → Text}
    (hgap : ∀ m, gap m = m.gap ∨ gap m = [' ']) (line : Text) :
    line.count ':' = (reader.replaceAll (fun m => m.renewed (gap m)) line).count ':' + (reader.hits line).length := by
  have hcount : line.count ':' = (reader.replaceAll (fun m => m.renewed (gap m)) line).count ':' +
      (reader.hits line).countP fun _ => true :=
    tally_colons.replaceAll hr (fun {_ _ m} hread t => (hr hread).2.count_append (hgap m) t) line
  simpa using hcount

end DocLint
