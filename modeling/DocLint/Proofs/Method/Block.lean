import DocLint.Proofs.Method.Pairing
import DocLint.Proofs.Method.Steps

/-!
# Comments as blocks of lines

The first comment of a file and the comments of its methods are collected by two different scans. Both are blocks of the
file: trimmed lines from one that begins a comment to the first from there on that ends one (`DocComment.IsBlock`).

* A file has a first comment unless no line ends a comment from its first opening mark on
  (`DocComment.first?_eq_none_iff`).
* While a comment is open the scan for methods holds the lines since its opening mark (`ScanState.Collects`), each step
  keeps this (`ScanState.Collects.step`), and so the comments of all methods are blocks (`Method.isBlock_comment`).

A block is the first comment of the lines from its opening mark on (`DocComment.IsBlock.first?`), so the two scans agree
(`Method.comments_are_first`).
-/

namespace DocLint

/-! ## Blocks -/

namespace DocComment

/-- The comment is a block of the lines: the trimmed lines from one that begins a comment to the first from there on that
ends one, with the numbers of the two. -/
def IsBlock (lines : List Text) (comment : DocComment) : Prop :=
  ∃ pre block post, lines = pre ++ block ++ post ∧ (∀ line ∈ block.head?, opens line = true) ∧ IsClosed block ∧
    comment = ⟨pre.length + 1, pre.length + block.length, block.map Text.trim⟩

variable {lines : List Text} {comment : DocComment}

/-- A block does not depend on the lines below it. -/
theorem IsBlock.append (h : IsBlock lines comment) (below : List Text) : IsBlock (lines ++ below) comment := by
  obtain ⟨pre, block, post, rfl, hopens, hclosed, rfl⟩ := h
  exact ⟨pre, block, post ++ below, by rw [List.append_assoc], hopens, hclosed, rfl⟩

/-- **A block is the first comment** of the lines from its own first line on. -/
theorem IsBlock.first? (h : IsBlock lines comment) :
    (DocComment.first? (lines.drop (comment.startLine - 1))).map (·.shift (comment.startLine - 1)) = some comment := by
  obtain ⟨pre, block, post, rfl, hopens, hclosed, rfl⟩ := h
  have hfirst : DocComment.first? (block ++ post) = some ⟨1, block.length, block.map Text.trim⟩ := by
    refine first?_eq_some_iff.2 ⟨[], block, post, rfl, ⟨by simp, hopens, hclosed⟩, ?_⟩
    rw [List.length_nil, Nat.zero_add, Nat.zero_add]
  rw [Nat.add_sub_cancel, List.append_assoc, List.drop_left, hfirst, Option.map_some, shift, Nat.add_comm 1,
    Nat.add_comm block.length]

/-- The first comment of a file is the block that begins at its first opening mark. -/
theorem isBlock_of_first? (h : DocComment.first? lines = some comment) :
    IsBlock lines comment ∧ ∀ n < comment.startLine, ∀ line ∈ lineAt? lines n, opens line = false := by
  obtain ⟨pre, block, post, rfl, hfirst, rfl⟩ := first?_eq_some_iff.1 h
  refine ⟨⟨pre, block, post, rfl, hfirst.opening, hfirst.closed, rfl⟩, fun n hn line hline => ?_⟩
  rw [List.append_assoc, lineAt?_append_of_le (Nat.le_of_lt_succ hn)] at hline
  cases n with
  | zero => cases hline
  | succ n => exact hfirst.before line (List.mem_of_getElem? hline)

/-- The lines with the numbers of a block have its marks. -/
theorem IsBlock.marks (h : IsBlock lines comment) : comment.startLine ≤ comment.endLine ∧
    (∃ line ∈ lineAt? lines comment.startLine, opens line = true) ∧
    ∃ line ∈ lineAt? lines comment.endLine, closes line = true := by
  obtain ⟨pre, block, post, rfl, hopens, hclosed, rfl⟩ := h
  have hpos : 0 < block.length := List.length_pos_iff.2 hclosed.nonempty
  refine ⟨Nat.add_le_add_left hpos _, ?_, ?_⟩
  · cases block with
    | nil => exact absurd rfl hclosed.nonempty
    | cons line block =>
      rw [List.append_assoc]
      exact ⟨line, lineAt?_append_length pre line (block ++ post), hopens line rfl⟩
  · rw [List.append_assoc]
    show ∃ line ∈ lineAt? (pre ++ (block ++ post)) (pre.length + block.length), closes line = true
    rw [Nat.add_comm, lineAt?_add_length hpos]
    exact hclosed.exists_lineAt? post

/-- Lines have a first comment when one of them begins a comment and one at or below it ends one. -/
theorem exists_first? {i j : Nat} (hle : i ≤ j) (hopening : ∃ line ∈ lineAt? lines i, opens line = true)
    (hclosing : ∃ line ∈ lineAt? lines j, closes line = true) : ∃ comment, DocComment.first? lines = some comment := by
  obtain ⟨opener, hopener, hopens⟩ := hopening
  obtain ⟨closer, hcloser, hcloses⟩ := hclosing
  have hsome : (lines.find? opens).isSome = true := List.find?_isSome.2 ⟨opener, mem_of_lineAt? hopener, hopens⟩
  obtain ⟨first, hfind⟩ := Option.isSome_iff_exists.1 hsome
  obtain ⟨hfirst, pre, rest, rfl, hbefore⟩ := List.find?_eq_some_iff_append.1 hfind
  have hbefore' : ∀ line ∈ pre, opens line = false := fun line hline => by simpa using hbefore line hline
  -- The opening mark is not above the first one, so the closing one is not either.
  have hi : pre.length < i := by
    by_contra hle
    rw [lineAt?_append_of_le (Nat.le_of_not_lt hle)] at hopener
    rw [hbefore' opener (mem_of_lineAt? hopener)] at hopens
    cases hopens
  obtain ⟨k, rfl⟩ := Nat.exists_eq_add_of_le' (Nat.le_of_lt (Nat.lt_of_lt_of_le hi hle))
  rw [lineAt?_add_length (by omega)] at hcloser
  rcases closes_eq_false_or_exists_isClosed (first :: rest) with hnone | ⟨block, post, hlines, hclosed⟩
  · rw [hnone closer (mem_of_lineAt? hcloser)] at hcloses
    cases hcloses
  · refine ⟨_, first?_eq_some_iff.2 ⟨pre, block, post, by rw [hlines, List.append_assoc], ⟨hbefore', ?_, hclosed⟩, rfl⟩⟩
    intro line hline
    cases block with
    | nil => cases hline
    | cons head block =>
      cases hlines
      cases hline
      exact hfirst

/-- **A file has no first comment** exactly when no line that begins a comment is followed, in its own line or below, by
one that ends a comment. -/
theorem first?_eq_none_iff : DocComment.first? lines = none ↔ ¬ ∃ i j, i ≤ j ∧
    (∃ line ∈ lineAt? lines i, opens line = true) ∧ ∃ line ∈ lineAt? lines j, closes line = true := by
  rw [← not_iff_not, not_not, ← ne_eq, Option.ne_none_iff_exists']
  constructor
  · rintro ⟨comment, h⟩
    exact ⟨_, _, (isBlock_of_first? h).1.marks⟩
  · rintro ⟨i, j, hle, hopening, hclosing⟩
    exact exists_first? hle hopening hclosing

end DocComment

/-! ## The comments of methods -/

namespace ScanState

open DocComment (IsBlock isClosed_singleton)

variable {above below taken : List Text} {line : Text} {state state' : ScanState} {ended : Option Method}

/-- What the scan holds of comments are blocks of the lines that are read, or the lines since an opening mark, none of
which ends a comment. -/
def Collects (above : List Text) : ScanState → Prop
  | free pending => ∀ comment ∈ pending, IsBlock above comment
  | inComment comment => ∃ pre block, above = pre ++ block ∧ block ≠ [] ∧
      (∀ line ∈ block.head?, DocComment.opens line = true) ∧ (∀ line ∈ block, DocComment.closes line = false) ∧
      comment.startLine = pre.length + 1 ∧ comment.lines = block.map Text.trim
  | inMethod method => ∀ comment ∈ method.comment, IsBlock above comment

/-- A text of a method leaves its comment alone. -/
theorem collects_readMethod {method : UnclosedMethod} (h : ∀ comment ∈ method.comment, IsBlock above comment)
    (number : Nat) (text : Text) :
    Collects above (readMethod method number text).1 ∧
      ∀ m ∈ (readMethod method number text).2, ∀ comment ∈ m.comment, IsBlock above comment := by
  have hsame := (method.read_places text).2
  simp only [readMethod]
  split
  · refine ⟨fun comment hc => (by cases hc), fun m hm comment hc => h comment ?_⟩
    cases hm
    rwa [← hsame]
  · refine ⟨fun comment hc => h comment ?_, fun m hm => (by cases hm)⟩
    rwa [← hsame]

/-- The lines of an open comment are a block with the line that ends it. -/
theorem Collects.readComment {comment : DocComment} (h : Collects above (.inComment comment)) (line : Text) :
    Collects (above ++ [line]) (ScanState.readComment comment (above.length + 1) (Text.trim line)) := by
  obtain ⟨pre, block, rfl, hne, hopens, hcloses, hstart, hlines⟩ := h
  have hopens' : ∀ t ∈ (block ++ [line]).head?, DocComment.opens t = true := by
    rwa [List.head?_append_of_ne_nil _ hne]
  simp only [ScanState.readComment, DocComment.closes_trim]
  cases hline : DocComment.closes line with
  | true =>
    rw [if_pos rfl]
    intro c hc
    cases hc
    refine ⟨pre, block ++ [line], [], by simp, hopens', ⟨by simp, ?_, ?_⟩, ?_⟩
    · rwa [List.dropLast_concat]
    · simpa using hline
    · simp [hstart, hlines, Nat.add_assoc]
  | false =>
    rw [if_neg Bool.false_ne_true]
    refine ⟨pre, block ++ [line], by simp, by simp, hopens', ?_, hstart, by simp [hlines]⟩
    simpa [or_imp, forall_and, hline] using hcloses

/-- A line that begins a comment is a block or begins the lines of an open comment. -/
theorem collects_beginComment (above : List Text) (hopens : DocComment.opens line = true) :
    Collects (above ++ [line]) (beginComment (above.length + 1) (Text.trim line)) := by
  simp only [beginComment, DocComment.closes_trim]
  cases hline : DocComment.closes line with
  | true =>
    rw [if_pos rfl]
    intro c hc
    cases hc
    exact ⟨above, [line], [], by simp, by simpa using hopens, isClosed_singleton.2 hline, rfl⟩
  | false =>
    rw [if_neg Bool.false_ne_true]
    exact ⟨above, [line], rfl, by simp, by simpa using hopens, by simpa using hline, rfl, rfl⟩

/-- **One step** keeps what the scan holds of comments, and a method that ends has a block. -/
theorem Collects.step (h : Collects above state)
    (hstep : step state (above.length + 1) line (taken ++ below) = (state', ended, taken.length)) :
    Collects (above ++ line :: taken) state' ∧
      ∀ m ∈ ended, ∀ comment ∈ m.comment, IsBlock (above ++ line :: taken) comment := by
  cases state with
  | inComment comment =>
    simp only [ScanState.step, Prod.mk.injEq] at hstep
    obtain ⟨rfl, rfl, htaken⟩ := hstep
    obtain rfl := List.length_eq_zero_iff.1 htaken.symm
    exact ⟨h.readComment line, fun m hm => (by cases hm)⟩
  | inMethod method =>
    simp only [ScanState.step, Prod.mk.injEq] at hstep
    obtain ⟨rfl, rfl, -⟩ := hstep
    exact collects_readMethod (fun comment hc => (h comment hc).append _) _ _
  | free pending =>
    have hpending : ∀ comment ∈ pending, IsBlock (above ++ line :: taken) comment := fun comment hc =>
      (h comment hc).append _
    simp only [ScanState.step, DocComment.opens_trim] at hstep
    split at hstep
    · rename_i hopens
      simp only [Prod.mk.injEq] at hstep
      obtain ⟨rfl, rfl, htaken⟩ := hstep
      obtain rfl := List.length_eq_zero_iff.1 htaken.symm
      exact ⟨collects_beginComment above hopens, fun m hm => (by cases hm)⟩
    · split at hstep
      · simp only [Prod.mk.injEq] at hstep
        obtain ⟨rfl, rfl, -⟩ := hstep
        exact collects_readMethod hpending _ _
      · simp only [Prod.mk.injEq] at hstep
        obtain ⟨rfl, rfl, -⟩ := hstep
        refine ⟨fun comment hc => ?_, fun m hm => (by cases hm)⟩
        split at hc
        · exact hpending comment hc
        · cases hc

/-- **All steps** keep it. -/
theorem Reads.collects {found : List Method} (h : Reads above below state found) :
    Collects above state ∧ ∀ m ∈ found, ∀ comment ∈ m.comment, IsBlock above comment := by
  induction h with
  | start lines => exact ⟨fun comment hc => (by cases hc), fun m hm => (by cases hm)⟩
  | @step above taken below line state state' found ended _ hstep ih =>
    obtain ⟨hstate, hended⟩ := ih.1.step hstep
    refine ⟨hstate, fun m hm comment hc => ?_⟩
    rcases List.mem_append.1 hm with hm | hm
    · exact (ih.2 m hm comment hc).append _
    · exact hended m (Option.mem_toList.1 hm) comment hc

end ScanState

namespace Method

open DocComment (IsBlock opens closes)

/-- The comment of a method is a block of the file. -/
theorem isBlock_comment {lines : List Text} {m : Method} (hm : m ∈ ofLines lines) :
    ∀ comment ∈ m.comment, IsBlock lines comment := by
  obtain ⟨state, hreads⟩ := ScanState.exists_reads lines
  exact hreads.collects.2 m hm

/-- **Both scans find the same comments.** A file has no first comment exactly when no line that begins a comment has one
that ends a comment at or below it; otherwise the first comment is the block at the first line that begins one. The
comment of a method is a block of the file, and it is the first comment of the lines from its own first line on. -/
theorem comments_are_first (lines : List Text) :
    (DocComment.first? lines = none ↔ ¬ ∃ i j, i ≤ j ∧ (∃ line ∈ lineAt? lines i, opens line = true) ∧
      ∃ line ∈ lineAt? lines j, closes line = true) ∧
    (∀ comment, DocComment.first? lines = some comment → IsBlock lines comment ∧
      ∀ n < comment.startLine, ∀ line ∈ lineAt? lines n, opens line = false) ∧
    ∀ m ∈ ofLines lines, ∀ comment, m.comment = some comment → IsBlock lines comment ∧
      (DocComment.first? (lines.drop (comment.startLine - 1))).map (·.shift (comment.startLine - 1)) = some comment := by
  refine ⟨DocComment.first?_eq_none_iff, fun comment h => DocComment.isBlock_of_first? h, fun m hm comment hc => ?_⟩
  have hblock := isBlock_comment hm comment hc
  exact ⟨hblock, hblock.first?⟩

/-- Below the first comment of a file, the comment of a method is the first one from its own first line on. -/
theorem comments_are_first_second :
    let lines := ["/** A. */".toList, "enum E \x7b\x7d;".toList, "/**".toList, " * B.".toList, " */".toList,
      "void b();".toList]
    (∃ comment, DocComment.first? lines = some comment ∧ comment.endLine = 1 ∧ IsBlock lines comment) ∧
      ∃ m ∈ ofLines lines, ∃ comment, m.comment = some comment ∧ comment.startLine = 3 ∧ IsBlock lines comment ∧
        (DocComment.first? (lines.drop 2)).map (·.shift 2) = some comment := by
  intro lines
  obtain ⟨-, hfirst, hmethods⟩ := comments_are_first lines
  have hhead : DocComment.first? lines = some ⟨1, 1, ["/** A. */".toList]⟩ := by decide +kernel
  have hcomments : (ofLines lines).map (·.comment) =
      [some ⟨3, 5, ["/**".toList, "* B.".toList, "*/".toList]⟩] := by decide +kernel
  obtain ⟨m, rest, hlines, hcomment, -⟩ := List.map_eq_cons_iff.1 hcomments
  have hm : m ∈ ofLines lines := hlines ▸ List.mem_cons_self
  obtain ⟨hblock, hsame⟩ := hmethods m hm _ hcomment
  exact ⟨⟨_, hhead, rfl, (hfirst _ hhead).1⟩, m, hm, _, hcomment, rfl, hblock, hsame⟩

end Method
end DocLint
