import DocLint.Proofs.Method.First

/-!
# Writing a comment above a method

A comment that is read as a whole waits for the next declaration (`ScanState.scan_comment`). So a comment that is written
above a file which begins with a method goes to this method, and all else stays as it is, further down
(`Method.ofLines_documented`).
-/

namespace DocLint

open DocComment (IsClosed isClosed_singleton isClosed_cons)

namespace ScanState

/-- An open comment takes the lines up to the one that ends it. -/
theorem scan_inComment : ∀ {block : List Text}, IsClosed block → ∀ (comment : DocComment) (number : Nat)
    (lines : List Text), scan 0 (.inComment comment) number (block ++ lines) =
      scan 0 (.free (some ⟨comment.startLine, number + block.length - 1, comment.lines ++ block.map Text.trim⟩))
        (number + block.length) lines
  | [], h, _, _, _ => absurd rfl h.nonempty
  | [line], h, comment, number, lines => by
    have hcloses := isClosed_singleton.1 h
    simp [scan, step, readComment, DocComment.closes_trim, hcloses]
  | line :: next :: block, h, comment, number, lines => by
    obtain ⟨hcloses, hrest⟩ := (isClosed_cons (by simp)).1 h
    have hlength : number + (line :: next :: block).length = number + 1 + (next :: block).length := by
      simp only [List.length_cons]
      omega
    rw [hlength, List.cons_append]
    simp only [scan, step, readComment, DocComment.closes_trim, hcloses, Bool.false_eq_true, if_false,
      Option.toList_none, List.nil_append]
    rw [scan_inComment hrest]
    simp

/-- A comment that is read as a whole waits for the next declaration, and replaces the one that waited. -/
theorem scan_comment {block : List Text} (hopens : ∀ line ∈ block.head?, DocComment.opens line = true)
    (hclosed : IsClosed block) (pending : Option DocComment) (number : Nat) (lines : List Text) :
    scan 0 (.free pending) number (block ++ lines) =
      scan 0 (.free (some ⟨number, number + block.length - 1, block.map Text.trim⟩)) (number + block.length) lines := by
  match block, hclosed with
  | [], h => exact absurd rfl h.nonempty
  | [line], h =>
    have hcloses := isClosed_singleton.1 h
    simp [scan, step, beginComment, DocComment.opens_trim, DocComment.closes_trim, hopens line rfl, hcloses]
  | line :: next :: block, h =>
    obtain ⟨hcloses, hrest⟩ := (isClosed_cons (by simp)).1 h
    have hlength : number + (line :: next :: block).length = number + 1 + (next :: block).length := by
      simp only [List.length_cons]
      omega
    rw [hlength, List.cons_append]
    simp only [scan, step, beginComment, DocComment.opens_trim, DocComment.closes_trim, hopens line rfl, hcloses,
      if_true, Bool.false_eq_true, if_false, Option.toList_none, List.nil_append]
    rw [scan_inComment hrest]
    simp

end ScanState

namespace Method

/-- **A comment written above a method** that begins the file goes to this method. The methods are the same otherwise,
further down. -/
theorem ofLines_documented {block lines : List Text} {m : Method} {rest : List Method}
    (hopens : ∀ line ∈ block.head?, DocComment.opens line = true) (hclosed : IsClosed block)
    (h : ofLines lines = m :: rest) (hstart : m.declaration.startLine = 1) :
    ofLines (block ++ lines) =
      (m.shift block.length).withComment (some ⟨1, block.length, block.map Text.trim⟩) ::
        rest.map (·.shift block.length) := by
  obtain ⟨above, line, below, rfl, hdeclares⟩ := ScanState.exists_declared (fun _ h => by cases h) h
  have habove : above = [] := by
    have := hdeclares.start
    exact List.length_eq_zero_iff.1 (by omega)
  subst habove
  obtain ⟨found, hfound⟩ := hdeclares.found
  have hshift := ScanState.scan_shift block.length 0 (.free none) 1 (line :: below)
  calc ofLines (block ++ line :: below)
      = ScanState.scan 0 (.free (some ⟨1, block.length, block.map Text.trim⟩)) (1 + block.length) (line :: below) := by
        rw [ofLines, ScanState.scan_comment hopens hclosed, Nat.add_comm 1, Nat.add_sub_cancel]
    _ = (ScanState.scan 0 (.free none) (1 + block.length) (line :: below)).modifyHead
          (·.withComment (some ⟨1, block.length, block.map Text.trim⟩)) :=
        (ScanState.scan_declared _ hdeclares.opens hfound _).1
    _ = ((ofLines (line :: below)).map (·.shift block.length)).modifyHead
          (·.withComment (some ⟨1, block.length, block.map Text.trim⟩)) := congrArg _ hshift
    _ = _ := by
        rw [List.nil_append] at h
        rw [h]
        rfl

end Method
end DocLint
