import Mathlib.Data.List.Pairwise
import DocLint.Method

/-!
# The order of methods

The scan holds a comment that waits for its method, a comment that is still open, or a method that is still open. What
it holds lies between the last method found and the next line to be read (`ScanState.Holds`), each step keeps this
(`ScanState.Holds.step`), and so every method lies below the one before it (`ScanState.scan_inOrder`). No line belongs
to two methods or comments (`Method.ofLines_inOrder`).
-/

namespace DocLint

/-! ## Sizes of declarations -/

namespace Candidate

/-- An open declaration takes lines that are there. -/
theorem size_extend? : ∀ {more : Nat} {joined : Text} {size : Nat} {lines : List Text} {found : Candidate},
    extend? more joined size lines = some found → size < found.size ∧ found.size ≤ size + lines.length
  | 0, _, _, _, _, h => by cases h
  | _ + 1, _, _, [], _, h => by cases h
  | more + 1, joined, size, line :: rest, found, h => by
    simp only [extend?] at h
    split at h
    · obtain ⟨signature, -, rfl⟩ := Option.map_eq_some_iff.1 h
      simp only [List.length_cons]
      omega
    · have ih := size_extend? h
      simp only [List.length_cons]
      omega

/-- A declaration is read off at least one line and no more than there are. -/
theorem size_ofLines? {lines : List Text} {found : Candidate} (h : ofLines? lines = some found) :
    1 ≤ found.size ∧ found.size ≤ lines.length := by
  cases lines with
  | nil => cases h
  | cons line rest =>
    simp only [ofLines?] at h
    split at h
    · cases h
      simp
    · split at h
      · have := size_extend? h
        simp only [List.length_cons]
        omega
      · cases h

end Candidate

/-! ## Comments and methods in their places -/

/-- The comment lies between two lines. -/
structure DocComment.Between (above below : Nat) (comment : DocComment) : Prop where
  above : above < comment.startLine
  ordered : comment.startLine ≤ comment.endLine
  below : comment.endLine < below

/-- The method and its comment lie below a line, the comment above the declaration. -/
structure Method.Below (floor : Nat) (m : Method) : Prop where
  declaration : floor < m.declaration.startLine
  ordered : m.declaration.startLine ≤ m.declaration.endLine
  comment : ∀ comment ∈ m.comment, comment.Between floor m.declaration.startLine

theorem Method.Below.weaken {floor floor' : Nat} {m : Method} (h : m.Below floor) (hle : floor' ≤ floor) :
    m.Below floor' where
  declaration := Nat.lt_of_le_of_lt hle h.declaration
  ordered := h.ordered
  comment comment hc :=
    have hbetween := h.comment comment hc
    ⟨Nat.lt_of_le_of_lt hle hbetween.above, hbetween.ordered, hbetween.below⟩

/-- Each method lies below the one before it, the first one below `floor`, and none ends below `last`. -/
inductive Method.InOrder (last : Nat) : (floor : Nat) → List Method → Prop
  | nil (floor : Nat) : InOrder last floor []
  | cons {floor : Nat} {m : Method} {rest : List Method} : m.Below floor → m.declaration.endLine ≤ last →
      InOrder last m.declaration.endLine rest → InOrder last floor (m :: rest)

/-! ## The scan -/

namespace UnclosedMethod

theorem readChar_places (m : UnclosedMethod) (c : Char) :
    (m.readChar c).startLine = m.startLine ∧ (m.readChar c).comment = m.comment := by
  unfold readChar
  split
  · exact ⟨rfl, rfl⟩
  · split <;> exact ⟨rfl, rfl⟩

/-- Reading a text of a method changes neither its first line nor its comment. -/
theorem read_places (m : UnclosedMethod) (text : Text) :
    (m.read text).startLine = m.startLine ∧ (m.read text).comment = m.comment := by
  induction text generalizing m with
  | nil => exact ⟨rfl, rfl⟩
  | cons c text ih =>
    obtain ⟨hstart, hcomment⟩ := readChar_places m c
    exact ⟨(ih (m.readChar c)).1.trans hstart, (ih (m.readChar c)).2.trans hcomment⟩

end UnclosedMethod

namespace ScanState

/-- What the scan holds before it reads the line `number` lies below the line `floor`. -/
def Holds (floor number : Nat) : ScanState → Prop
  | free pending => ∀ comment ∈ pending, comment.Between floor number
  | inComment comment => floor < comment.startLine ∧ comment.startLine < number
  | inMethod method => floor < method.startLine ∧ method.startLine < number ∧
      ∀ comment ∈ method.comment, comment.Between floor method.startLine

variable {floor number : Nat}

/-- A method ends with the text, in the line `last` that the text ends in, or goes on. -/
theorem readMethod_holds {method : UnclosedMethod} (last : Nat) (text : Text) (hfloor : floor < method.startLine)
    (hlast : method.startLine ≤ last) (hcomment : ∀ comment ∈ method.comment, comment.Between floor method.startLine)
    {state : ScanState} {ended : Option Method} (h : readMethod method last text = (state, ended)) :
    (∀ m ∈ ended, m.Below floor ∧ m.declaration.endLine = last) ∧
      state.Holds ((ended.map (·.declaration.endLine)).getD floor) (last + 1) := by
  obtain ⟨hstart, hsame⟩ := method.read_places text
  simp only [readMethod] at h
  split at h
  · cases h
    refine ⟨fun m hm => ?_, fun comment hc => by cases hc⟩
    cases hm
    refine ⟨⟨?_, ?_, ?_⟩, rfl⟩
    · simpa [UnclosedMethod.close, hstart] using hfloor
    · simpa [UnclosedMethod.close, hstart] using hlast
    · simpa [UnclosedMethod.close, hstart, hsame] using hcomment
  · cases h
    refine ⟨fun m hm => (by cases hm), ?_⟩
    simp only [Holds, hstart, hsame]
    exact ⟨hfloor, Nat.lt_succ_of_le hlast, hcomment⟩

/-- **One step** finds a method below the floor or none. It reads lines that are there, and what the scan holds
afterwards lies below the method, if one was found, and above the next line. -/
theorem Holds.step {state : ScanState} (h : state.Holds floor number) (hfloor : floor < number) (line : Text)
    (rest : List Text) {state' : ScanState} {ended : Option Method} {skip : Nat}
    (hstep : step state number line rest = (state', ended, skip)) :
    skip ≤ rest.length ∧ (∀ m ∈ ended, m.Below floor ∧ m.declaration.endLine = number + skip) ∧
      state'.Holds ((ended.map (·.declaration.endLine)).getD floor) (number + skip + 1) := by
  cases state with
  | inComment comment =>
    obtain ⟨hstart, hnumber⟩ := h
    simp only [ScanState.step] at hstep
    cases hstep
    refine ⟨Nat.zero_le _, fun m hm => (by cases hm), ?_⟩
    simp only [readComment]
    split
    · intro c hc
      cases hc
      exact ⟨hstart, Nat.le_of_lt hnumber, Nat.lt_succ_self number⟩
    · exact ⟨hstart, Nat.lt_succ_of_lt hnumber⟩
  | inMethod method =>
    obtain ⟨hstart, hnumber, hcomment⟩ := h
    simp only [ScanState.step] at hstep
    cases hstep
    exact ⟨Nat.zero_le _, readMethod_holds number _ hstart (Nat.le_of_lt hnumber) hcomment rfl⟩
  | free pending =>
    simp only [ScanState.step] at hstep
    split at hstep
    · cases hstep
      refine ⟨Nat.zero_le _, fun m hm => (by cases hm), ?_⟩
      simp only [beginComment]
      split
      · intro c hc
        cases hc
        exact ⟨hfloor, Nat.le_refl number, Nat.lt_succ_self number⟩
      · exact ⟨hfloor, Nat.lt_succ_self number⟩
    · split at hstep
      · rename_i found hfound
        obtain ⟨hpos, hsize⟩ := Candidate.size_ofLines? hfound
        cases hstep
        have hlast : number + found.size - 1 = number + (found.size - 1) := by omega
        rw [hlast]
        have hmethod := @readMethod_holds floor ⟨found.signature, pending, number, 0, false⟩
          (number + (found.size - 1)) found.text hfloor (Nat.le_add_right _ _) h _ _ rfl
        rw [List.length_cons] at hsize
        exact ⟨by omega, hmethod⟩
      · cases hstep
        refine ⟨Nat.zero_le _, fun m hm => (by cases hm), ?_⟩
        intro c hc
        -- The comment is detached or still waits, one line longer.
        have hpending : c ∈ pending := by
          split at hc
          · exact hc
          · cases hc
        have hbetween := h c hpending
        exact ⟨hbetween.above, hbetween.ordered, Nat.lt_succ_of_lt hbetween.below⟩

/-- **The methods of a scan** lie in their order below the floor. -/
theorem scan_inOrder : ∀ {skip number floor : Nat} {state : ScanState} (lines : List Text),
    state.Holds floor (number + skip) → floor < number + skip →
      Method.InOrder (number + lines.length - 1) floor (scan skip state number lines)
  | 0, _, floor, _, [], _, _ => .nil floor
  | _ + 1, _, floor, _, [], _, _ => .nil floor
  | skip + 1, number, floor, state, _ :: rest, h, hfloor => by
    have hnext : number + (skip + 1) = number + 1 + skip := by omega
    have hlast : number + (rest.length + 1) - 1 = number + 1 + rest.length - 1 := by omega
    rw [hnext] at h hfloor
    rw [List.length_cons, hlast]
    exact scan_inOrder rest h hfloor
  | 0, number, floor, state, line :: rest, h, hfloor => by
    rcases hstep : step state number line rest with ⟨state', ended, skip⟩
    rw [Nat.add_zero] at h hfloor
    obtain ⟨hskip, hended, hstate⟩ := h.step hfloor line rest hstep
    have hnext : number + skip + 1 = number + 1 + skip := by omega
    have hlast : number + (rest.length + 1) - 1 = number + 1 + rest.length - 1 := by omega
    rw [hnext] at hstate
    simp only [scan, hstep, List.length_cons, hlast]
    cases ended with
    | none => exact scan_inOrder rest hstate (by omega)
    | some m =>
      obtain ⟨hbelow, hend⟩ := hended m rfl
      simp only [Option.map_some, Option.getD_some] at hstate
      exact .cons hbelow (by omega) (scan_inOrder rest hstate (by omega))

end ScanState

/-! ## The methods of a file -/

/-- Some lines of a file, from the first to the last one. -/
structure Span where
  first : Nat
  last : Nat
  deriving DecidableEq, Repr

/-- The line is one of them. -/
def Span.covers (s : Span) (line : Nat) : Bool := s.first ≤ line && line ≤ s.last

/-- Of spans that lie below each other at most one covers a line. -/
theorem Span.countP_covers_le_one {spans : List Span} (hapart : spans.Pairwise (·.last < ·.first)) (line : Nat) :
    spans.countP (·.covers line) ≤ 1 := by
  induction spans with
  | nil => simp
  | cons s rest ih =>
    obtain ⟨hs, hrest⟩ := List.pairwise_cons.1 hapart
    rw [List.countP_cons]
    by_cases hcovers : s.covers line = true
    · have hnone : rest.countP (·.covers line) = 0 := by
        rw [List.countP_eq_zero]
        intro t ht
        have hlt := hs t ht
        simp only [covers, Bool.and_eq_true, decide_eq_true_eq] at hcovers ⊢
        omega
      simp [hnone, hcovers]
    · rw [if_neg hcovers]
      exact ih hrest

namespace Method

/-- The lines of the comment, if there is one, and those of the declaration. -/
def spans (m : Method) : List Span :=
  m.comment.toList.map (fun comment => ⟨comment.startLine, comment.endLine⟩) ++
    [⟨m.declaration.startLine, m.declaration.endLine⟩]

/-- What a method spans lies between the floor and its last line. -/
theorem Below.of_mem_spans {floor : Nat} {m : Method} (h : m.Below floor) {s : Span} (hs : s ∈ m.spans) :
    floor < s.first ∧ s.last ≤ m.declaration.endLine := by
  rcases List.mem_append.1 hs with hs | hs
  · obtain ⟨comment, hc, rfl⟩ := List.mem_map.1 hs
    have hbetween := h.comment comment (Option.mem_toList.1 hc)
    have hbelow := hbetween.below
    have hordered := h.ordered
    exact ⟨hbetween.above, by dsimp only; omega⟩
  · obtain rfl := List.mem_singleton.1 hs
    exact ⟨h.declaration, Nat.le_refl _⟩

theorem Below.pairwise_spans {floor : Nat} {m : Method} (h : m.Below floor) : m.spans.Pairwise (·.last < ·.first) := by
  rw [spans, List.pairwise_append]
  refine ⟨?_, List.pairwise_singleton _ _, ?_⟩
  · cases m.comment <;> simp
  · intro s hs t ht
    obtain ⟨comment, hc, rfl⟩ := List.mem_map.1 hs
    obtain rfl := List.mem_singleton.1 ht
    exact (h.comment comment (Option.mem_toList.1 hc)).below

variable {last floor : Nat} {methods : List Method}

theorem InOrder.mem (h : InOrder last floor methods) {m : Method} (hm : m ∈ methods) :
    m.Below floor ∧ m.declaration.endLine ≤ last := by
  induction h with
  | nil floor => cases hm
  | @cons floor first rest hfirst hlast _ ih =>
    rcases List.mem_cons.1 hm with rfl | hm
    · exact ⟨hfirst, hlast⟩
    · obtain ⟨hbelow, hend⟩ := ih hm
      have hdeclaration := hfirst.declaration
      have hordered := hfirst.ordered
      exact ⟨hbelow.weaken (by omega), hend⟩

/-- Not only the next method lies below a method, all later ones do. -/
theorem InOrder.pairwise (h : InOrder last floor methods) :
    methods.Pairwise fun a b => b.Below a.declaration.endLine := by
  induction h with
  | nil floor => exact .nil
  | cons _ _ hrest ih => exact .cons (fun m hm => (hrest.mem hm).1) ih

/-- The methods of a file are in their order. -/
theorem inOrder_ofLines (lines : List Text) : InOrder lines.length 0 (ofLines lines) := by
  have h := @ScanState.scan_inOrder 0 1 0 (.free none) lines (fun comment hc => (by cases hc)) Nat.one_pos
  rwa [Nat.add_comm, Nat.add_sub_cancel] at h

theorem InOrder.pairwise_spans (h : InOrder last floor methods) :
    (methods.flatMap spans).Pairwise (·.last < ·.first) := by
  rw [List.pairwise_flatMap]
  refine ⟨fun m hm => (h.mem hm).1.pairwise_spans, ?_⟩
  refine h.pairwise.imp_of_mem fun ha _ hnext s hs t ht => ?_
  exact Nat.lt_of_le_of_lt ((h.mem ha).1.of_mem_spans hs).2 (hnext.of_mem_spans ht).1

/-- A comment is attached to one method only. -/
theorem InOrder.pairwise_comments (h : InOrder last floor methods) :
    (methods.filterMap (·.comment)).Pairwise (·.endLine < ·.startLine) := by
  rw [List.pairwise_filterMap]
  refine h.pairwise.imp_of_mem fun ha _ hnext c hc d hd => ?_
  have hbelow := (h.mem ha).1
  have hend := (hbelow.comment c hc).below
  have hordered := hbelow.ordered
  have habove := (hnext.comment d hd).above
  omega

/-- **Methods are found in the order of the file, apart from each other.** A method and its comment have their first and
last lines in this order, within the file. A method ends before all later ones and their comments begin. Hence no line
is in two of the methods and comments, and no comment is attached twice. -/
theorem ofLines_inOrder (lines : List Text) :
    (∀ m ∈ ofLines lines,
      1 ≤ m.declaration.startLine ∧ m.declaration.startLine ≤ m.declaration.endLine ∧
      m.declaration.endLine ≤ lines.length ∧
      ∀ comment, m.comment = some comment → 1 ≤ comment.startLine ∧ comment.startLine ≤ comment.endLine ∧
        comment.endLine < m.declaration.startLine) ∧
    (ofLines lines).Pairwise (fun a b => a.declaration.endLine < b.declaration.startLine ∧
      ∀ comment, b.comment = some comment → a.declaration.endLine < comment.startLine) ∧
    (∀ line : Nat, ((ofLines lines).flatMap spans).countP (·.covers line) ≤ 1) ∧
    ((ofLines lines).filterMap (·.comment)).Pairwise (·.endLine < ·.startLine) := by
  have h := inOrder_ofLines lines
  refine ⟨fun m hm => ?_, h.pairwise.imp fun hbelow => ?_, fun line => ?_, h.pairwise_comments⟩
  · obtain ⟨hbelow, hlast⟩ := h.mem hm
    refine ⟨hbelow.declaration, hbelow.ordered, hlast, fun comment hc => ?_⟩
    have hbetween := hbelow.comment comment hc
    exact ⟨hbetween.above, hbetween.ordered, hbetween.below⟩
  · exact ⟨hbelow.declaration, fun comment hc => (hbelow.comment comment hc).above⟩
  · exact Span.countP_covers_le_one h.pairwise_spans line

end Method
end DocLint
