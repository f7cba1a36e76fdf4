import DocLint.Proofs.DocComment
import DocLint.Method

/-!
# A method in one line

A line that declares a method and ends in a semicolon is a method by itself, unless it opens more braces than it closes
(`ScanState.scan_oneLine`).
-/

namespace DocLint

namespace UnclosedMethod

/-- What the braces of a text change. -/
theorem read_eq (m : UnclosedMethod) (text : Text) :
    m.read text = { m with
      depth := m.depth + text.count '{' - text.count '}'
      braced := m.braced || text.contains '{' } := by
  induction text generalizing m with
  | nil => simp [read]
  | cons c text ih =>
    have hread : m.read (c :: text) = (m.readChar c).read text := rfl
    rw [hread, ih, readChar]
    split
    · rename_i hc
      simp [hc]
      omega
    · rename_i hopen
      split
      · rename_i hc
        simp [hc]
        omega
      · rename_i hclose
        simp [Ne.symm hopen, hopen, hclose]

/-- What a text does to a method that goes on depends on its braces. -/
theorem read_congr {text text' : Text} (hopen : text.count '{' = text'.count '{')
    (hclose : text.count '}' = text'.count '}') (m : UnclosedMethod) : m.read text = m.read text' := by
  have hbraced : text.contains '{' = text'.contains '{' := by
    rw [Bool.eq_iff_iff, List.contains_iff_mem, List.contains_iff_mem, ← List.count_pos_iff, hopen, List.count_pos_iff]
  rw [read_eq, read_eq, hopen, hclose, hbraced]

end UnclosedMethod

namespace ScanState

/-- A line that declares a method and ends in a semicolon is a method by itself, unless it leaves braces open. -/
theorem scan_oneLine {line : Text} {signature : Signature} (hopens : DocComment.opens line = false)
    (hsignature : Signature.ofLine? (Text.trim line) = some signature) (hend : (Text.trim line).getLast? = some ';')
    (pending : Option DocComment) (number : Nat) :
    scan 0 (.free pending) number [line] =
      if (Text.trim line).count '{' ≤ (Text.trim line).count '}' then
        [⟨⟨signature, Parameter.ofSignature signature.text, number, number⟩, pending⟩]
      else [] := by
  have hfound : Candidate.ofLines? [line] = some ⟨signature, Text.trim line, 1⟩ := by
    simp only [Candidate.ofLines?, hsignature]
  have hends : (UnclosedMethod.read ⟨signature, pending, number, 0, false⟩ (Text.trim line)).endsAt (Text.trim line) =
      decide ((Text.trim line).count '{' ≤ (Text.trim line).count '}') := by
    simp only [UnclosedMethod.read_eq, UnclosedMethod.endsAt, Bool.false_or, hend, beq_self_eq_true, Bool.true_or]
    cases hbraced : (Text.trim line).contains '{' with
    | true =>
      rw [if_pos rfl]
      exact decide_eq_decide.2 (by omega)
    | false =>
      have hnone : (Text.trim line).count '{' = 0 := List.count_eq_zero.2 (by simpa using hbraced)
      simp [hnone]
  simp only [scan, step, DocComment.opens_trim, hopens, Bool.false_eq_true, if_false, hfound, readMethod, hends,
    decide_eq_true_eq, List.append_nil]
  split
  · rw [UnclosedMethod.read_eq]
    rfl
  · rfl

end ScanState
end DocLint
