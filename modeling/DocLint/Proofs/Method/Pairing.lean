import DocLint.Proofs.Method.First

/-!
# The comment of a method

After lines without a method the scan holds the comment whose last line is followed by none but lines that keep it
(`DocComment.Waits`), and no other (`ScanState.follows_passAll`). The first method takes what the scan holds there, and a
file can be cut above any other method. So a method has a comment exactly if one waits above it, below the method before
(`Method.comment_iff_waits`).
-/

namespace DocLint

/-! ## Lines by their numbers -/

section Numbers

/-- The line with this number. -/
def lineAt? (lines : List Text) : Nat → Option Text
  | 0 => none
  | n + 1 => lines[n]?

theorem lineAt?_append_of_le {above : List Text} {n : Nat} (h : n ≤ above.length) (below : List Text) :
    lineAt? (above ++ below) n = lineAt? above n := by
  cases n with
  | zero => rfl
  | succ n => exact List.getElem?_append_left h

theorem lineAt?_append_length (above : List Text) (line : Text) (below : List Text) :
    lineAt? (above ++ line :: below) (above.length + 1) = some line := by
  simp [lineAt?]

theorem lineAt?_add_length {n : Nat} (hn : 0 < n) (above below : List Text) :
    lineAt? (above ++ below) (n + above.length) = lineAt? below n := by
  cases n with
  | zero => cases hn
  | succ n =>
    rw [Nat.add_right_comm]
    simp only [lineAt?]
    rw [List.getElem?_append_right (Nat.le_add_left _ _), Nat.add_sub_cancel]

theorem mem_of_lineAt? {line : Text} {lines : List Text} : ∀ {n : Nat}, line ∈ lineAt? lines n → line ∈ lines
  | 0, h => by cases h
  | _ + 1, h => List.mem_of_getElem? h

end Numbers

/-! ## Comments above a line -/

namespace DocComment

open ScanState (keepsComment)

/-- A line begins a comment that no line before the line `number` ends. -/
structure StaysOpen (lines : List Text) (first number : Nat) : Prop where
  pos : 0 < first
  lt : first < number
  opening : ∃ line ∈ lineAt? lines first, opens line = true
  unclosed : ∀ n, first ≤ n → n < number → ∀ line ∈ lineAt? lines n, closes line = false

/-- Below the line `floor` a line begins a comment, the line `last` is the first from there on that ends one, and only
lines that keep it stand between its end and the line `number`. -/
structure Waits (lines : List Text) (floor first last number : Nat) : Prop where
  above : floor < first
  ordered : first ≤ last
  below : last < number
  opening : ∃ line ∈ lineAt? lines first, opens line = true
  closing : ∃ line ∈ lineAt? lines last, closes line = true
  unclosed : ∀ n, first ≤ n → n < last → ∀ line ∈ lineAt? lines n, closes line = false
  kept : ∀ n, last < n → n < number → ∀ line ∈ lineAt? lines n,
    keepsComment (Text.trim line) = true ∧ opens line = false

/-- The line that ends the block. -/
theorem IsClosed.exists_lineAt? {block : List Text} (hclosed : IsClosed block) (below : List Text) :
    ∃ text ∈ lineAt? (block ++ below) block.length, closes text = true := by
  have htext : block.getLast? = some (block.getLast hclosed.nonempty) := List.getLast?_eq_some_getLast _
  have hcloses := hclosed.closing _ htext
  obtain ⟨front, hblock⟩ := List.getLast?_eq_some_iff.1 htext
  generalize block.getLast hclosed.nonempty = text at hcloses hblock
  subst hblock
  refine ⟨text, ?_, hcloses⟩
  rw [List.append_assoc, List.length_append]
  exact lineAt?_append_length front text below

section Concat

variable {lines : List Text} {line : Text} {first last : Nat}

/-- The comment that begins in the line `first` is open when the next line, `line`, is read. -/
def OpenWith (lines : List Text) (line : Text) (first : Nat) : Prop :=
  StaysOpen lines first (lines.length + 1) ∨ first = lines.length + 1 ∧ opens line = true

theorem openWith_iff : OpenWith lines line first ↔
    0 < first ∧ first ≤ lines.length + 1 ∧ (∃ t ∈ lineAt? (lines ++ [line]) first, opens t = true) ∧
      ∀ n, first ≤ n → n ≤ lines.length → ∀ t ∈ lineAt? (lines ++ [line]) n, closes t = false := by
  constructor
  · rintro (h | ⟨rfl, hopens⟩)
    · have hle := Nat.le_of_lt_succ h.lt
      refine ⟨h.pos, Nat.le_of_lt h.lt, ?_, fun n hfirst hn => ?_⟩
      · rw [lineAt?_append_of_le hle]
        exact h.opening
      · rw [lineAt?_append_of_le hn]
        exact h.unclosed n hfirst (Nat.lt_succ_of_le hn)
    · exact ⟨Nat.succ_pos _, Nat.le_refl _, ⟨line, lineAt?_append_length lines line [], hopens⟩, fun n hfirst hn =>
        absurd (Nat.le_trans hfirst hn) (Nat.not_succ_le_self _)⟩
  · rintro ⟨hpos, hle, hopening, hunclosed⟩
    rcases Nat.lt_or_eq_of_le hle with hlt | rfl
    · have hfirst := Nat.le_of_lt_succ hlt
      rw [lineAt?_append_of_le hfirst] at hopening
      refine .inl ⟨hpos, hlt, hopening, fun n hn hnlt => ?_⟩
      rw [← lineAt?_append_of_le (Nat.le_of_lt_succ hnlt) [line]]
      exact hunclosed n hn (Nat.le_of_lt_succ hnlt)
    · obtain ⟨t, ht, hopens⟩ := hopening
      rw [lineAt?_append_length lines line []] at ht
      cases ht
      exact .inr ⟨rfl, hopens⟩

theorem staysOpen_concat_iff :
    StaysOpen (lines ++ [line]) first (lines.length + 2) ↔ OpenWith lines line first ∧ closes line = false := by
  rw [openWith_iff]
  constructor
  · intro h
    have hle := Nat.le_of_lt_succ h.lt
    exact ⟨⟨h.pos, hle, h.opening, fun n hn hnle => h.unclosed n hn (by omega)⟩,
      h.unclosed (lines.length + 1) hle (Nat.lt_succ_self _) line (lineAt?_append_length lines line [])⟩
  · rintro ⟨⟨hpos, hle, hopening, hunclosed⟩, hcloses⟩
    refine ⟨hpos, Nat.lt_succ_of_le hle, hopening, fun n hn hnlt t ht => ?_⟩
    rcases Nat.lt_or_eq_of_le (Nat.le_of_lt_succ hnlt) with hlt | rfl
    · exact hunclosed n hn (Nat.le_of_lt_succ hlt) t ht
    · rw [lineAt?_append_length lines line []] at ht
      cases ht
      exact hcloses

/-- The numbers of the lines decide what waits, up to the line that it waits for. -/
theorem Waits.congr {lines lines' : List Text} {floor number : Nat} (h : Waits lines floor first last number)
    (heq : ∀ n < number, lineAt? lines n = lineAt? lines' n) : Waits lines' floor first last number where
  above := h.above
  ordered := h.ordered
  below := h.below
  opening := heq first (Nat.lt_of_le_of_lt h.ordered h.below) ▸ h.opening
  closing := heq last h.below ▸ h.closing
  unclosed n hn hlt := heq n (Nat.lt_trans hlt h.below) ▸ h.unclosed n hn hlt
  kept n hn hlt := heq n hlt ▸ h.kept n hn hlt

theorem waits_concat_iff : Waits (lines ++ [line]) 0 first last (lines.length + 2) ↔
    (last = lines.length + 1 ∧ OpenWith lines line first ∧ closes line = true) ∨
      (Waits lines 0 first last (lines.length + 1) ∧ keepsComment (Text.trim line) = true ∧ opens line = false) := by
  have hline := lineAt?_append_length lines line []
  have hsame : ∀ n < lines.length + 1, lineAt? (lines ++ [line]) n = lineAt? lines n := fun n hn =>
    lineAt?_append_of_le (Nat.le_of_lt_succ hn) [line]
  constructor
  · intro h
    rcases Nat.lt_or_eq_of_le (Nat.le_of_lt_succ h.below) with hlt | rfl
    · obtain ⟨hkeeps, hopens⟩ := h.kept (lines.length + 1) hlt (Nat.lt_succ_self _) line hline
      have hshorter : Waits (lines ++ [line]) 0 first last (lines.length + 1) :=
        ⟨h.above, h.ordered, hlt, h.opening, h.closing, h.unclosed, fun n hn hnlt =>
          h.kept n hn (Nat.lt_succ_of_lt hnlt)⟩
      exact .inr ⟨hshorter.congr hsame, hkeeps, hopens⟩
    · obtain ⟨t, ht, hcloses⟩ := h.closing
      rw [hline] at ht
      cases ht
      exact .inl ⟨rfl, openWith_iff.2 ⟨h.above, h.ordered, h.opening, fun n hn hnle =>
        h.unclosed n hn (Nat.lt_succ_of_le hnle)⟩, hcloses⟩
  · rintro (⟨rfl, hopen, hcloses⟩ | ⟨h, hkeeps, hopens⟩)
    · obtain ⟨hpos, hle, hopening, hunclosed⟩ := openWith_iff.1 hopen
      exact ⟨hpos, hle, Nat.lt_succ_self _, hopening, ⟨line, hline, hcloses⟩, fun n hn hnlt =>
        hunclosed n hn (Nat.le_of_lt_succ hnlt), fun n hn hnlt => absurd hnlt (Nat.not_lt_of_ge hn)⟩
    · have h' := h.congr fun n hn => (hsame n hn).symm
      refine ⟨h'.above, h'.ordered, Nat.lt_succ_of_lt h'.below, h'.opening, h'.closing, h'.unclosed,
        fun n hn hnlt t ht => ?_⟩
      rcases Nat.lt_or_eq_of_le (Nat.le_of_lt_succ hnlt) with hlt | rfl
      · exact h'.kept n hn hlt t ht
      · rw [hline] at ht
        cases ht
        exact ⟨hkeeps, hopens⟩

/-- What waits in lines waits further down when lines stand above them. -/
theorem waits_append_iff {above below : List Text} {number : Nat} :
    Waits (above ++ below) above.length (first + above.length) (last + above.length) (number + above.length) ↔
      Waits below 0 first last number := by
  constructor
  · intro h
    have hpos : 0 < first := Nat.pos_of_lt_add_left h.above
    have hle : first ≤ last := Nat.le_of_add_le_add_right h.ordered
    refine ⟨hpos, hle, Nat.lt_of_add_lt_add_right h.below, ?_, ?_, fun n hn hlt => ?_, fun n hn hlt => ?_⟩
    · rw [← lineAt?_add_length hpos above]
      exact h.opening
    · rw [← lineAt?_add_length (Nat.lt_of_lt_of_le hpos hle) above]
      exact h.closing
    · rw [← lineAt?_add_length (Nat.lt_of_lt_of_le hpos hn) above]
      exact h.unclosed _ (Nat.add_le_add_right hn _) (Nat.add_lt_add_right hlt _)
    · rw [← lineAt?_add_length (Nat.zero_lt_of_lt hn) above]
      exact h.kept _ (Nat.add_lt_add_right hn _) (Nat.add_lt_add_right hlt _)
  · intro h
    have hpos := h.above
    refine ⟨by omega, Nat.add_le_add_right h.ordered _, Nat.add_lt_add_right h.below _, ?_, ?_, fun n hn hlt => ?_,
      fun n hn hlt => ?_⟩
    · rw [lineAt?_add_length hpos above]
      exact h.opening
    · rw [lineAt?_add_length (Nat.lt_of_lt_of_le hpos h.ordered) above]
      exact h.closing
    · obtain ⟨k, rfl⟩ := Nat.exists_eq_add_of_le' (Nat.le_trans (Nat.le_add_left _ _) hn)
      rw [lineAt?_add_length (Nat.lt_of_lt_of_le hpos (Nat.le_of_add_le_add_right hn)) above]
      exact h.unclosed k (Nat.le_of_add_le_add_right hn) (Nat.lt_of_add_lt_add_right hlt)
    · obtain ⟨k, rfl⟩ := Nat.exists_eq_add_of_le' (Nat.le_trans (Nat.le_add_left _ _) (Nat.le_of_lt hn))
      have hk := Nat.lt_of_add_lt_add_right hn
      rw [lineAt?_add_length (Nat.zero_lt_of_lt hk) above]
      exact h.kept k hk (Nat.lt_of_add_lt_add_right hlt)

/-- An open comment leaves none waiting. -/
theorem StaysOpen.not_waits {number start : Nat} (h : StaysOpen lines start number) :
    ¬ Waits lines 0 first last number := by
  intro hwaits
  obtain ⟨line, hline, hopens⟩ := h.opening
  obtain ⟨closer, hcloser, hcloses⟩ := hwaits.closing
  rcases Nat.lt_or_ge last start with hlt | hge
  · have := (hwaits.kept start hlt h.lt line hline).2
    rw [hopens] at this
    cases this
  · have := h.unclosed last hge hwaits.below closer hcloser
    rw [hcloses] at this
    cases this

end Concat
end DocComment

/-! ## What the scan holds between methods -/

namespace ScanState

section Follows

open DocComment (StaysOpen Waits OpenWith staysOpen_concat_iff waits_concat_iff)

/-- What the scan holds after the lines, if they declare nothing: the comment that waits below them, or the one that is
still open there. -/
def Follows (lines : List Text) : ScanState → Prop
  | free pending =>
    (∀ comment ∈ pending, Waits lines 0 comment.startLine comment.endLine (lines.length + 1)) ∧
    (∀ first last, Waits lines 0 first last (lines.length + 1) → ∃ comment ∈ pending, comment.endLine = last) ∧
    ∀ first, ¬ StaysOpen lines first (lines.length + 1)
  | inComment comment => StaysOpen lines comment.startLine (lines.length + 1)
  | inMethod _ => False

/-- A line more is followed as well. -/
theorem Follows.pass {lines : List Text} {state : ScanState} (h : Follows lines state) (line : Text) :
    Follows (lines ++ [line]) (state.pass (lines.length + 1) line) := by
  have hlength : (lines ++ [line]).length + 1 = lines.length + 2 := by simp
  cases state with
  | inMethod method => exact h.elim
  | inComment comment =>
    have hopen : OpenWith lines line comment.startLine := .inl h
    simp only [ScanState.pass, readComment, DocComment.closes_trim]
    cases hcloses : DocComment.closes line with
    | true =>
      simp only [if_true, Follows, hlength]
      refine ⟨fun c hc => ?_, fun first last hwaits => ?_, fun first hstays => ?_⟩
      · cases hc
        exact waits_concat_iff.2 (.inl ⟨rfl, hopen, hcloses⟩)
      · rcases waits_concat_iff.1 hwaits with ⟨rfl, -⟩ | ⟨hwaits, -⟩
        · exact ⟨_, rfl, rfl⟩
        · exact (h.not_waits hwaits).elim
      · have := (staysOpen_concat_iff.1 hstays).2
        rw [hcloses] at this
        cases this
    | false =>
      simp only [Bool.false_eq_true, if_false, Follows, hlength]
      exact staysOpen_concat_iff.2 ⟨hopen, hcloses⟩
  | free pending =>
    obtain ⟨hpending, hwaiting, hnone⟩ := h
    simp only [ScanState.pass, beginComment, DocComment.opens_trim, DocComment.closes_trim]
    cases hopens : DocComment.opens line with
    | true =>
      have hopen : OpenWith lines line (lines.length + 1) := .inr ⟨rfl, hopens⟩
      cases hcloses : DocComment.closes line with
      | true =>
        simp only [if_true, Follows, hlength]
        refine ⟨fun c hc => ?_, fun first last hwaits => ?_, fun first hstays => ?_⟩
        · cases hc
          exact waits_concat_iff.2 (.inl ⟨rfl, hopen, hcloses⟩)
        · rcases waits_concat_iff.1 hwaits with ⟨rfl, -⟩ | ⟨-, -, hno⟩
          · exact ⟨_, rfl, rfl⟩
          · rw [hopens] at hno
            cases hno
        · have := (staysOpen_concat_iff.1 hstays).2
          rw [hcloses] at this
          cases this
      | false =>
        simp only [if_true, Bool.false_eq_true, if_false, Follows, hlength]
        exact staysOpen_concat_iff.2 ⟨hopen, hcloses⟩
    | false =>
      -- No comment is open with this line, so what waits below it waited above it.
      have hclosed : ∀ first, ¬ OpenWith lines line first := by
        rintro first (hstays | ⟨-, hno⟩)
        · exact hnone first hstays
        · rw [hopens] at hno
          cases hno
      simp only [Bool.false_eq_true, if_false, Follows, hlength]
      refine ⟨fun c hc => ?_, fun first last hwaits => ?_, fun first hstays => ?_⟩
      · split at hc
        · rename_i hkeeps
          exact waits_concat_iff.2 (.inr ⟨hpending c hc, hkeeps, hopens⟩)
        · cases hc
      · rcases waits_concat_iff.1 hwaits with ⟨-, hopen, -⟩ | ⟨hwaits, hkeeps, -⟩
        · exact (hclosed first hopen).elim
        · rw [if_pos hkeeps]
          exact hwaiting first last hwaits
      · exact hclosed first (staysOpen_concat_iff.1 hstays).1

/-- Lines that declare nothing are followed. -/
theorem follows_passAll (lines : List Text) : Follows lines (passAll (.free none) 1 lines) := by
  induction lines using List.reverseRecOn with
  | nil =>
    refine ⟨fun c hc => (by cases hc), fun first last hwaits => ?_, fun first hstays => ?_⟩
    · have habove := hwaits.above
      have hordered := hwaits.ordered
      have hbelow := hwaits.below
      rw [List.length_nil] at hbelow
      omega
    · have hpos := hstays.pos
      have hlt := hstays.lt
      rw [List.length_nil] at hlt
      omega
  | append_singleton lines line ih =>
    rw [passAll_concat, Nat.add_comm]
    exact ih.pass line

end Follows
end ScanState

/-! ## All methods -/

namespace Method

open DocComment (Waits)

theorem waits_of_ofLines_eq_cons {lines : List Text} {m : Method} {rest : List Method} (h : ofLines lines = m :: rest) :
    (∀ comment ∈ m.comment, Waits lines 0 comment.startLine comment.endLine m.declaration.startLine) ∧
      ∀ first last, Waits lines 0 first last m.declaration.startLine → ∃ comment ∈ m.comment, comment.endLine = last := by
  obtain ⟨above, line, below, rfl, hdeclares⟩ := ScanState.exists_declared (fun _ h => by cases h) h
  have hfollows := ScanState.follows_passAll above
  rw [hdeclares.passed] at hfollows
  obtain ⟨hpending, hwaiting, -⟩ := hfollows
  have hstart := hdeclares.start
  rw [Nat.add_comm] at hstart
  have hsame : ∀ n < above.length + 1, lineAt? above n = lineAt? (above ++ line :: below) n := fun n hn =>
    (lineAt?_append_of_le (Nat.le_of_lt_succ hn) _).symm
  rw [hstart]
  exact ⟨fun c hc => (hpending c hc).congr hsame, fun first last hwaits =>
    hwaiting first last (hwaits.congr fun n hn => (hsame n hn).symm)⟩

/-- The last line of the last method, or 0 if there is none. -/
def lastLine (methods : List Method) : Nat := (methods.getLast?.map (·.declaration.endLine)).getD 0

variable {lines : List Text} {before after : List Method} {m : Method}

theorem waits_of_ofLines_eq (h : ofLines lines = before ++ m :: after) :
    (∀ comment ∈ m.comment,
      Waits lines (lastLine before) comment.startLine comment.endLine m.declaration.startLine) ∧
      ∀ first last, Waits lines (lastLine before) first last m.declaration.startLine →
        ∃ comment ∈ m.comment, comment.endLine = last := by
  rcases List.eq_nil_or_concat' before with rfl | ⟨before, p, rfl⟩
  · exact waits_of_ofLines_eq_cons h
  · -- The file is cut above the method, at the end of the one before it.
    rw [List.append_assoc, List.singleton_append] at h
    have hp : p ∈ ofLines lines := h ▸ List.mem_append_right _ List.mem_cons_self
    have hend : (lines.take p.declaration.endLine).length = p.declaration.endLine := by
      rw [List.length_take]
      exact Nat.min_eq_left ((inOrder_ofLines lines).mem hp).2
    obtain ⟨m', rest', heq, rfl, -⟩ := List.map_eq_cons_iff.1 (cut_of_ofLines_eq h).2
    have hlast : lastLine (before ++ [p]) = p.declaration.endLine := by simp [lastLine]
    obtain ⟨hcomment, hwaits⟩ := waits_of_ofLines_eq_cons heq
    have hshift : ∀ {first last : Nat}, Waits lines p.declaration.endLine (first + p.declaration.endLine)
        (last + p.declaration.endLine) (m'.declaration.startLine + p.declaration.endLine) ↔
        Waits (lines.drop p.declaration.endLine) 0 first last m'.declaration.startLine := by
      intro first last
      have happend := @DocComment.waits_append_iff first last (lines.take p.declaration.endLine)
        (lines.drop p.declaration.endLine) m'.declaration.startLine
      rwa [hend, List.take_append_drop] at happend
    rw [hlast]
    refine ⟨fun comment hc => ?_, fun first last h => ?_⟩
    · obtain ⟨c, hc', rfl⟩ := Option.map_eq_some_iff.1 hc
      exact hshift.2 (hcomment c hc')
    · obtain ⟨first, rfl⟩ := Nat.exists_eq_add_of_le' (Nat.le_of_lt h.above)
      obtain ⟨last, rfl⟩ := Nat.exists_eq_add_of_le' (Nat.le_trans (Nat.le_of_lt h.above) h.ordered)
      obtain ⟨c, hc, rfl⟩ := hwaits first last (hshift.1 h)
      exact ⟨c.shift p.declaration.endLine, Option.map_eq_some_iff.2 ⟨c, hc, rfl⟩, rfl⟩

/-- **A method has a comment exactly if one waits above it.** Let the method be declared in the line `s` and the one before
it end in the line `p`, with 0 for the first method. The method has a comment if and only if there are `p < a ≤ e < s` such
that line `a` begins a comment, line `e` is the first from there on that ends one, and the lines between `e` and `s` keep
it and begin no other. The comment then lies below `p` and ends in that line `e`. -/
theorem comment_iff_waits (h : ofLines lines = before ++ m :: after) :
    (m.comment.isSome = true ↔ ∃ first last, Waits lines (lastLine before) first last m.declaration.startLine) ∧
    ∀ comment, m.comment = some comment →
      Waits lines (lastLine before) comment.startLine comment.endLine m.declaration.startLine ∧
      ∀ first last, Waits lines (lastLine before) first last m.declaration.startLine → comment.endLine = last := by
  obtain ⟨hcomment, hwaits⟩ := waits_of_ofLines_eq h
  refine ⟨⟨fun hsome => ?_, fun ⟨first, last, hw⟩ => ?_⟩, fun comment hc => ⟨hcomment comment hc, fun first last hw => ?_⟩⟩
  · obtain ⟨comment, hc⟩ := Option.isSome_iff_exists.1 hsome
    exact ⟨_, _, hcomment comment hc⟩
  · obtain ⟨comment, hc, -⟩ := hwaits first last hw
    exact Option.isSome_iff_exists.2 ⟨comment, hc⟩
  · obtain ⟨comment', hc', rfl⟩ := hwaits first last hw
    rw [hc] at hc'
    cases hc'
    rfl

/-- A comment waits for the second method over an empty line and a template head. -/
theorem comment_iff_waits_template :
    let lines := ["/** A. */".toList, "void a();".toList, "/**".toList, " * B.".toList, " */".toList, [],
      "template <typename T>".toList, "int b(T t) \x7b".toList, "\x7d".toList]
    ∃ a b, ofLines lines = [a] ++ b :: [] ∧ b.comment.isSome = true ∧
      ∃ first last, Waits lines (lastLine [a]) first last b.declaration.startLine := by
  intro lines
  have hcomments : (ofLines lines).map (·.comment.isSome) = [true, true] := by decide
  obtain ⟨a, rest, h, -, hrest⟩ := List.map_eq_cons_iff.1 hcomments
  obtain ⟨b, rest, rfl, hsome, hnil⟩ := List.map_eq_cons_iff.1 hrest
  have htwo : ofLines lines = [a] ++ b :: [] := by rw [h, List.map_eq_nil_iff.1 hnil, List.singleton_append]
  exact ⟨a, b, htwo, hsome, (comment_iff_waits htwo).1.1 hsome⟩

end Method
end DocLint
