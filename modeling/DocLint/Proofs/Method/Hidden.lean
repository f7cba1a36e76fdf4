import DocLint.Proofs.Method.Documented
import DocLint.Proofs.Method.Pairing

/-!
# Methods hidden by a comment

A closing mark ends a comment only at the end of a line. A comment on one line with text behind its closing mark stays
open (`DocComment.closes_remarkLine`), and takes all lines up to the next one that ends a comment: methods are found
from there on only (`ScanState.scan_begun`). Thus the declarations below such a line are kept exactly if each of them
stands below a line that ends a comment (`Method.declarations_kept_iff`).

Comments decide where the scan finds declarations, but not what these are (`ScanState.declarations_scan_congr`).
-/

namespace DocLint

open DocComment (IsClosed isClosed_singleton isClosed_cons)

/-! ## A line with text behind a comment -/

namespace DocComment

/-- A comment with the text `note` and, behind its closing mark, the text `behind`. -/
def remarkLine (note behind : Text) : Text := openMark ++ ' ' :: note ++ ' ' :: closeMark ++ ' ' :: behind

theorem foldr_tail_other (s : Text) : s.foldr Tail.cons .other = .other := by
  induction s with
  | nil => rfl
  | cons c s ih => rw [List.foldr_cons, ih]; rfl

variable {note behind : Text}

theorem opens_remarkLine (note behind : Text) : opens (remarkLine note behind) = true :=
  opens_iff.2 ⟨[], by simp, _, by rw [List.nil_append, remarkLine, List.append_assoc, List.append_assoc]⟩

/-- The mark inside of the line does not end the comment. -/
theorem closes_remarkLine (htext : ∃ c ∈ behind, Text.isBlank c = false)
    (hmark : Text.occursIn closeMark behind = false) : closes (remarkLine note behind) = false := by
  have hblank : tail behind ≠ .blank := by
    intro h
    obtain ⟨c, hc, hno⟩ := htext
    rw [tail_eq_blank_iff.1 h c hc] at hno
    cases hno
  have hclosed : tail behind ≠ .closed := by
    intro h
    obtain ⟨s, blanks, -, rfl⟩ := tail_eq_closed_iff.1 h
    rw [Text.occursIn_iff.2 ⟨s, blanks, rfl⟩] at hmark
    cases hmark
  have hother : Tail.cons ' ' (tail behind) = .other := by
    cases htail : tail behind with
    | blank => exact absurd htail hblank
    | closed => exact absurd htail hclosed
    | slash | other => rfl
  rw [Bool.eq_false_iff, ne_eq, closes_iff_tail, remarkLine, tail_append]
  show ¬ (openMark ++ ' ' :: note ++ ' ' :: closeMark).foldr Tail.cons (Tail.cons ' ' (tail behind)) = .closed
  rw [hother, foldr_tail_other]
  decide

end DocComment

/-! ## Declarations without their comments -/

namespace ScanState

section Bare

/-- What the scan is in the middle of, without the comments that it has read. -/
def bare : ScanState → ScanState
  | free _ => .free none
  | inComment _ => .inComment ⟨0, 0, []⟩
  | inMethod method => .inMethod (method.withComment none)

theorem bare_beginComment (number : Nat) (line : Text) :
    (beginComment number line).bare = if DocComment.closes line then .free none else .inComment ⟨0, 0, []⟩ := by
  unfold beginComment
  split <;> rfl

theorem bare_readComment (comment : DocComment) (number : Nat) (line : Text) :
    (readComment comment number line).bare =
      if DocComment.closes line then .free none else .inComment ⟨0, 0, []⟩ := by
  unfold readComment
  split <;> rfl

/-- What a step comes to, without comments. -/
def bareResult (result : ScanState × Option Method × Nat) : ScanState × Option Declaration × Nat :=
  (result.1.bare, result.2.1.map (·.declaration), result.2.2)

theorem bareResult_readMethod (method : UnclosedMethod) (last : Nat) (text : Text) (skip : Nat) :
    bareResult ((readMethod (method.withComment none) last text).1,
        (readMethod (method.withComment none) last text).2, skip) =
      bareResult ((readMethod method last text).1, (readMethod method last text).2, skip) := by
  rcases readMethod_withComment none method last text with ⟨m, -, hm, hm'⟩ | ⟨method', -, hm, hm'⟩
  · rw [hm, hm']
    rfl
  · rw [hm, hm']
    rfl

/-- A step does not look at the comments that the scan has read. -/
theorem bareResult_step (state : ScanState) (number : Nat) (line : Text) (rest : List Text) :
    bareResult (step state.bare number line rest) = bareResult (step state number line rest) := by
  cases state with
  | inComment comment =>
    show bareResult (readComment ⟨0, 0, []⟩ number (Text.trim line), none, 0) =
      bareResult (readComment comment number (Text.trim line), none, 0)
    simp only [bareResult, bare_readComment]
  | inMethod method => exact bareResult_readMethod method number (Text.trim line) 0
  | free pending =>
    simp only [bare, step]
    split
    · rfl
    · split
      · rename_i found hfound
        exact bareResult_readMethod ⟨found.signature, pending, number, 0, false⟩ _ _ _
      · simp [bareResult, bare]

/-- **Comments do not change the declarations that are found.** -/
theorem declarations_scan_congr : ∀ {skip : Nat} {state state' : ScanState} {number : Nat} {lines : List Text},
    state.bare = state'.bare → (scan skip state number lines).map (·.declaration) =
      (scan skip state' number lines).map (·.declaration)
  | 0, _, _, _, [], _ | _ + 1, _, _, _, [], _ => rfl
  | skip + 1, _, _, number, _ :: rest, h => by
    simp only [scan]
    exact declarations_scan_congr h
  | 0, state, state', number, line :: rest, h => by
    have hstep : bareResult (step state number line rest) = bareResult (step state' number line rest) := by
      rw [← bareResult_step, h, bareResult_step]
    obtain ⟨hbare, hrest⟩ := Prod.ext_iff.1 hstep
    obtain ⟨hended, hskip⟩ := Prod.ext_iff.1 hrest
    simp only [bareResult] at hbare hended hskip
    simp only [scan, List.map_append, ← Option.toList_map, hended, hskip]
    rw [declarations_scan_congr hbare]

end Bare

/-! ## Lines inside a comment -/

section Begun

/-- A comment that no line ends hides all that follows. -/
theorem scan_inComment_eq_nil : ∀ {lines : List Text}, (∀ line ∈ lines, DocComment.closes line = false) →
    ∀ (comment : DocComment) (number : Nat), scan 0 (.inComment comment) number lines = []
  | [], _, _, _ => rfl
  | line :: rest, h, comment, number => by
    obtain ⟨hline, hrest⟩ := List.forall_mem_cons.1 h
    simp only [scan, step, readComment, DocComment.closes_trim, hline, Bool.false_eq_true, if_false]
    exact scan_inComment_eq_nil hrest _ _

variable {line : Text} {pending : Option DocComment} {number : Nat} {lines : List Text}

/-- **After a line that leaves a comment open** nothing is found up to the next line that ends one, and then the
declarations of the lines that follow. -/
theorem scan_begun (hopens : DocComment.opens line = true) (hcloses : DocComment.closes line = false) :
    ((∀ text ∈ lines, DocComment.closes text = false) → scan 0 (.free pending) number (line :: lines) = []) ∧
      ∀ block below, lines = block ++ below → IsClosed block →
        (scan 0 (.free pending) number (line :: lines)).map (·.declaration) =
          (scan 0 (.free none) (number + 1 + block.length) below).map (·.declaration) := by
  have hbegin : scan 0 (.free pending) number (line :: lines) =
      scan 0 (.inComment ⟨number, number, [Text.trim line]⟩) (number + 1) lines := by
    simp [scan, step, beginComment, DocComment.opens_trim, DocComment.closes_trim, hopens, hcloses]
  rw [hbegin]
  refine ⟨fun h => scan_inComment_eq_nil h _ _, ?_⟩
  rintro block below rfl hclosed
  rw [scan_inComment hclosed]
  exact declarations_scan_congr rfl

end Begun

/-! ## Lines above the first method -/

section Above

/-- The scan is not in the middle of a method. -/
def IsBetween : ScanState → Prop
  | inMethod _ => False
  | _ => True

variable {state : ScanState} {number : Nat} {line : Text} {rest : List Text}

/-- Behind a line that ends a comment the scan is free, whether the line was read in a comment or not. -/
theorem bare_pass_of_closes (hbetween : state.IsBetween) (h : DocComment.closes line = true) :
    (state.pass number line).bare = .free none := by
  cases state with
  | inMethod method => exact hbetween.elim
  | inComment comment => rw [pass, bare_readComment, DocComment.closes_trim, if_pos h]
  | free pending =>
    simp only [pass]
    split
    · rw [bare_beginComment, DocComment.closes_trim, if_pos h]
    · rfl

theorem isBetween_pass (hbetween : state.IsBetween) : (state.pass number line).IsBetween := by
  cases state with
  | inMethod method => exact hbetween.elim
  | inComment comment =>
    simp only [pass, readComment]
    split <;> trivial
  | free pending =>
    simp only [pass, beginComment]
    split
    · split <;> trivial
    · trivial

/-- A line between methods is passed, or the next method begins with it. -/
theorem scan_eq_pass_or (hbetween : state.IsBetween) (number : Nat) (line : Text) (rest : List Text) :
    scan 0 state number (line :: rest) = scan 0 (state.pass number line) (number + 1) rest ∨
      ∀ m ∈ (scan 0 state number (line :: rest)).head?, m.declaration.startLine = number := by
  cases state with
  | inMethod method => exact hbetween.elim
  | inComment comment => exact .inl rfl
  | free pending =>
    cases hopens : DocComment.opens line with
    | true => exact .inl (by simp [scan, step, pass, DocComment.opens_trim, hopens])
    | false =>
      cases hfound : Candidate.ofLines? (line :: rest) with
      | none => exact .inl (by simp [scan, step, pass, DocComment.opens_trim, hopens, hfound])
      | some found =>
        refine .inr fun m hm => ?_
        obtain ⟨hscan, hhead⟩ := scan_declared pending hopens hfound number
        rw [hscan, List.head?_modifyHead] at hm
        obtain ⟨m', hm', rfl⟩ := Option.map_eq_some_iff.1 hm
        exact hhead m' hm'

/-- Lines that end with the end of a comment do not matter to methods that all begin below them. -/
theorem declarations_scan_below : ∀ {block : List Text} {state : ScanState} {number : Nat} {below : List Text},
    IsClosed block → state.IsBetween →
    (∀ m ∈ scan 0 state number (block ++ below), number + block.length ≤ m.declaration.startLine) →
    (scan 0 state number (block ++ below)).map (·.declaration) ⊆
      (scan 0 (.free none) (number + block.length) below).map (·.declaration)
  | [], _, _, _, hclosed, _, _ => absurd rfl hclosed.nonempty
  | line :: block, state, number, below, hclosed, hbetween, hbelow => by
    rcases scan_eq_pass_or hbetween number line (block ++ below) with hpass | hstart
    · rw [List.cons_append, hpass] at hbelow ⊢
      by_cases hblock : block = []
      · subst hblock
        have hfree : (state.pass number line).bare = (ScanState.free none).bare :=
          bare_pass_of_closes hbetween (isClosed_singleton.1 hclosed)
        rw [List.nil_append, declarations_scan_congr hfree]
        exact List.Subset.refl _
      · have hlength : number + (line :: block).length = number + 1 + block.length := by
          rw [List.length_cons]
          omega
        rw [hlength] at hbelow ⊢
        exact declarations_scan_below ((isClosed_cons hblock).1 hclosed).2 (isBetween_pass hbetween) hbelow
    · -- A method that begins with this line would lie above, so there is none at all.
      cases hscan : scan 0 state number (line :: block ++ below) with
      | nil => exact List.nil_subset _
      | cons m methods =>
        have hm := hbelow m (hscan ▸ List.mem_cons_self)
        have hnumber := hstart m (by rw [← List.cons_append, hscan]; rfl)
        rw [List.length_cons] at hm
        omega

end Above
end ScanState

/-! ## Declarations below the line -/

theorem Declaration.shift_shift (d : Declaration) (k l : Nat) : d.shift (k + l) = (d.shift k).shift l := by
  simp only [Declaration.shift, Nat.add_assoc]

namespace Method

theorem declarations_shift (k : Nat) (lines : List Text) :
    (ScanState.scan 0 (.free none) (1 + k) lines).map (·.declaration) =
      (ofLines lines).map (·.declaration.shift k) := by
  have hshift := ScanState.scan_shift k 0 (.free none) 1 lines
  rw [ScanState.shift, Option.map_none] at hshift
  rw [hshift, List.map_map]
  rfl

/-- What lies above the first line that ends a comment has no other line that does. -/
theorem length_le_of_closes {block below : List Text} (hclosed : IsClosed block) {n : Nat} {text : Text}
    (htext : text ∈ lineAt? (block ++ below) n) (hcloses : DocComment.closes text = true) : block.length ≤ n := by
  cases n with
  | zero => cases htext
  | succ n =>
    by_contra hlt
    have hn : n < block.dropLast.length := by
      rw [List.length_dropLast]
      omega
    have hmem : text ∈ block.dropLast := by
      rw [Option.mem_def, lineAt?, List.getElem?_append_left (by omega)] at htext
      rw [List.mem_iff_getElem?]
      exact ⟨n, by rw [List.getElem?_dropLast, if_pos (by rwa [List.length_dropLast] at hn), htext]⟩
    rw [hclosed.inside text hmem] at hcloses
    cases hcloses

/-- **Declarations below a comment with text behind it on its line.** If no line ends a comment any more, no method is
found; otherwise the declarations are those of the lines below the first one that does. So the line hides no declaration
exactly if each of them stands below a line that ends a comment. -/
theorem declarations_kept_iff {behind : Text} (note : Text) (htext : ∃ c ∈ behind, Text.isBlank c = false)
    (hmark : Text.occursIn DocComment.closeMark behind = false) (lines : List Text) :
    ((∀ text ∈ lines, DocComment.closes text = false) →
      ofLines (DocComment.remarkLine note behind :: lines) = []) ∧
    (∀ block below, lines = block ++ below → IsClosed block →
      (ofLines (DocComment.remarkLine note behind :: lines)).map (·.declaration) =
        (ofLines below).map (·.declaration.shift (block.length + 1))) ∧
    ((∀ m ∈ ofLines lines,
        m.declaration.shift 1 ∈ (ofLines (DocComment.remarkLine note behind :: lines)).map (·.declaration)) ↔
      ∀ m ∈ ofLines lines, ∃ n < m.declaration.startLine, ∃ text ∈ lineAt? lines n,
        DocComment.closes text = true) := by
  obtain ⟨hnil, hbelow⟩ := @ScanState.scan_begun _ none 1 lines (DocComment.opens_remarkLine note behind)
    (DocComment.closes_remarkLine htext hmark)
  have hfound : ∀ block below, lines = block ++ below → IsClosed block →
      (ofLines (DocComment.remarkLine note behind :: lines)).map (·.declaration) =
        (ofLines below).map (·.declaration.shift (block.length + 1)) := by
    intro block below heq hclosed
    have hnumber : 1 + 1 + block.length = 1 + (block.length + 1) := by omega
    rw [← declarations_shift, ← hnumber]
    exact hbelow block below heq hclosed
  refine ⟨hnil, hfound, ?_⟩
  rcases DocComment.closes_eq_false_or_exists_isClosed lines with hnone | ⟨block, below, rfl, hclosed⟩
  · refine forall₂_congr fun m _ => iff_of_false ?_ ?_
    · have hnone' : ofLines (DocComment.remarkLine note behind :: lines) = [] := hnil hnone
      rw [hnone']
      exact List.not_mem_nil
    · rintro ⟨n, -, text, htext, hcloses⟩
      cases n with
      | zero => cases htext
      | succ n =>
        rw [hnone text (List.mem_of_getElem? htext)] at hcloses
        cases hcloses
  · rw [hfound block below rfl hclosed]
    constructor
    · intro h m hm
      obtain ⟨b, hb, heq⟩ := List.mem_map.1 (h m hm)
      have hstart : b.declaration.startLine + (block.length + 1) = m.declaration.startLine + 1 :=
        congrArg Declaration.startLine heq
      have hpos := ((inOrder_ofLines below).mem hb).1.declaration
      exact ⟨block.length, by omega, hclosed.exists_lineAt? below⟩
    · intro h m hm
      have hall : ∀ m ∈ ScanState.scan 0 (.free none) 1 (block ++ below),
          1 + block.length ≤ m.declaration.startLine := by
        intro m hm
        obtain ⟨n, hlt, text, htext, hcloses⟩ := h m hm
        have hle := length_le_of_closes hclosed htext hcloses
        omega
      have hbetween : ScanState.IsBetween (.free none) := trivial
      have hsubset := ScanState.declarations_scan_below hclosed hbetween hall
      rw [declarations_shift] at hsubset
      obtain ⟨b, hb, heq⟩ := List.mem_map.1 (hsubset (List.mem_map_of_mem hm))
      rw [← heq]
      exact List.mem_map.2 ⟨b, hb, Declaration.shift_shift b.declaration block.length 1⟩

/-- A method is kept below a comment with a data member behind it when the next comment ends above the method. -/
theorem declarations_kept_iff_next :
    let note := "Width.".toList
    let member := "int width;".toList
    let lines := ["/** Changes the size. */".toList, "void resize(int width);".toList]
    (∃ c ∈ member, Text.isBlank c = false) ∧ Text.occursIn DocComment.closeMark member = false ∧
      (ofLines lines).length = 1 ∧
      ∀ m ∈ ofLines lines,
        m.declaration.shift 1 ∈ (ofLines (DocComment.remarkLine note member :: lines)).map (·.declaration) := by
  intro note member lines
  have htext : ∃ c ∈ member, Text.isBlank c = false := ⟨'i', by decide, rfl⟩
  have hmark : Text.occursIn DocComment.closeMark member = false := by decide
  have hstart : ∀ m ∈ ofLines lines, m.declaration.startLine = 2 := by decide +kernel
  refine ⟨htext, hmark, by decide +kernel, (declarations_kept_iff note htext hmark lines).2.2.2 fun m hm => ?_⟩
  exact ⟨1, by rw [hstart m hm]; decide, _, rfl, by decide⟩

/-- The comment of a data member, closed before the member on one line, hides a method in the next line. -/
theorem declarations_hidden_by_member :
    let note := "Width.".toList
    let member := "int width;".toList
    let lines := ["void resize(int width);".toList]
    (∃ c ∈ member, Text.isBlank c = false) ∧
      (∀ text ∈ [note, member], ∀ mark ∈ ["*/", "(", ")", "\x7b", "\x7d"],
        Text.occursIn mark.toList text = false) ∧
      ∃ m ∈ ofLines lines,
        m.declaration.shift 1 ∉ (ofLines (DocComment.remarkLine note member :: lines)).map (·.declaration) := by
  intro note member lines
  refine ⟨⟨'i', by decide, rfl⟩, by decide +kernel, ?_⟩
  have hfound : (ofLines lines).length = 1 := by decide +kernel
  have hhidden : (ofLines (DocComment.remarkLine note member :: lines)).length = 0 := by decide +kernel
  obtain ⟨m, hm⟩ := List.exists_mem_of_length_pos (by rw [hfound]; exact Nat.one_pos)
  refine ⟨m, hm, ?_⟩
  rw [List.length_eq_zero_iff.1 hhidden]
  exact List.not_mem_nil

end Method
end DocLint
