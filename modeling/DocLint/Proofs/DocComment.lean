import DocLint.Proofs.Text
import DocLint.DocComment

/-!
# Documentation comments: marks and the first comment

* A line begins a comment when `/**` follows blanks (`opens_iff`), and ends one when only blanks follow `*/`
  (`closes_iff`). The second is read off the end of the line by a walk with four states (`Tail`, `closes_iff_tail`).
* `first?_eq_some_iff`: the first comment of a file is the block of lines that begins at the first line with `/**` and
  ends at the first line from there on with `*/`.
-/

namespace DocLint
namespace DocComment

open Text (isBlank trim trimStart trimEnd)

/-! ## Marks of a line -/

section Marks

theorem opens_trim (line : Text) : opens (trim line) = opens line := by
  rw [opens, opens, Text.trim_trim]

theorem closes_trim (line : Text) : closes (trim line) = closes line := by
  rw [closes, closes, Text.trim_trim]

/-- What a line has before blanks is not lost by trimming its end. -/
theorem prefix_trimEnd {c : Char} (hc : isBlank c = false) (s rest : Text) :
    s ++ [c] <+: trimEnd (s ++ c :: rest) := by
  rw [Text.trimEnd_append hc]
  exact ⟨trimEnd rest, by rw [List.append_assoc, List.singleton_append]⟩

/-- A line begins a comment when `/**` follows its blanks. -/
theorem opens_iff {line : Text} :
    opens line = true ↔ ∃ blanks, (∀ c ∈ blanks, isBlank c = true) ∧ blanks ++ openMark <+: line := by
  rw [opens, List.isPrefixOf_iff_prefix]
  constructor
  · intro h
    obtain ⟨blanks, -, heq⟩ := Text.exists_trimEnd_append (trimStart line)
    have h2 : trimEnd (trimStart line) <+: trimStart line := ⟨blanks, heq.symm⟩
    refine ⟨Text.leadingBlanks line, fun c hc => Text.isBlank_of_mem_leadingBlanks hc, ?_⟩
    conv => rhs; rw [← Text.leadingBlanks_append_trimStart line]
    exact (List.prefix_append_right_inj _).2 (h.trans h2)
  · rintro ⟨blanks, hb, rest, rfl⟩
    have hdrop : trimStart blanks = [] := List.dropWhile_eq_nil_iff.2 hb
    have heq : trimStart (blanks ++ openMark ++ rest) = ['/', '*'] ++ '*' :: rest := by
      have : blanks ++ openMark ++ rest = blanks ++ '/' :: ('*' :: '*' :: rest) := by simp [openMark]
      rw [this, Text.trimStart_append_cons (by decide), hdrop]
      rfl
    rw [trim, heq]
    exact prefix_trimEnd (show isBlank '*' = false from rfl) ['/', '*'] rest

/-- A line ends a comment when only blanks follow `*/`. -/
theorem closes_iff {line : Text} :
    closes line = true ↔ ∃ s blanks, (∀ c ∈ blanks, isBlank c = true) ∧ line = s ++ closeMark ++ blanks := by
  rw [closes, List.isSuffixOf_iff_suffix]
  constructor
  · rintro ⟨s, hs⟩
    obtain ⟨blanks, hb, heq⟩ := Text.exists_trimEnd_append (trimStart line)
    refine ⟨Text.leadingBlanks line ++ s, blanks, hb, ?_⟩
    rw [List.append_assoc, List.append_assoc, ← List.append_assoc s, hs, trim, ← heq,
      Text.leadingBlanks_append_trimStart]
  · rintro ⟨s, blanks, hb, rfl⟩
    have heq : s ++ closeMark ++ blanks = s ++ '*' :: ('/' :: blanks) := by simp [closeMark]
    refine ⟨trimStart s, ?_⟩
    rw [trim, heq, Text.trimStart_append_cons (by decide),
      show trimStart s ++ '*' :: ('/' :: blanks) = (trimStart s ++ ['*']) ++ '/' :: blanks by simp,
      Text.trimEnd_append_cons (by decide) _ hb]
    simp [closeMark]

end Marks

/-! ## The end of a line -/

section Tails

/-- What the end of a line shows of the closing mark. -/
inductive Tail
  /-- Blanks alone. -/
  | blank
  /-- A slash and blanks alone. -/
  | slash
  /-- The closing mark and blanks behind it. -/
  | closed
  /-- Anything else. -/
  | other
  deriving DecidableEq

/-- The tail of a line with one more character in front. -/
def Tail.cons (c : Char) : Tail → Tail
  | blank => if isBlank c then blank else if c = '/' then slash else other
  | slash => if c = '*' then closed else other
  | closed => closed
  | other => other

/-- The tail of a line. -/
def tail (line : Text) : Tail := line.foldr Tail.cons .blank

theorem tail_append (s t : Text) : tail (s ++ t) = s.foldr Tail.cons (tail t) := List.foldr_append

theorem Tail.cons_eq_blank_iff {c : Char} {t : Tail} : Tail.cons c t = .blank ↔ isBlank c = true ∧ t = .blank := by
  cases t with
  | blank => simp only [Tail.cons]; split_ifs <;> simp_all
  | slash => simp only [Tail.cons]; split_ifs <;> simp
  | closed => simp [Tail.cons]
  | other => simp [Tail.cons]

theorem Tail.cons_eq_slash_iff {c : Char} {t : Tail} : Tail.cons c t = .slash ↔ c = '/' ∧ t = .blank := by
  have hslash : isBlank '/' = false := rfl
  cases t with
  | blank =>
    simp only [Tail.cons]
    split_ifs with h1 h2
    · simp only [and_true, false_iff]
      rintro rfl
      rw [hslash] at h1
      cases h1
    · simp [h2]
    · simp [h2]
  | slash => simp only [Tail.cons]; split_ifs <;> simp
  | closed => simp [Tail.cons]
  | other => simp [Tail.cons]

theorem Tail.cons_eq_closed_iff {c : Char} {t : Tail} :
    Tail.cons c t = .closed ↔ t = .closed ∨ (c = '*' ∧ t = .slash) := by
  cases t with
  | blank => simp only [Tail.cons]; split_ifs <;> simp
  | slash => simp only [Tail.cons]; split_ifs <;> simp_all
  | closed => simp [Tail.cons]
  | other => simp [Tail.cons]

theorem tail_eq_blank_iff : ∀ {line : Text}, tail line = .blank ↔ ∀ c ∈ line, isBlank c = true
  | [] => by simp [tail]
  | c :: line => by
    have ih := @tail_eq_blank_iff line
    rw [tail, List.foldr_cons, Tail.cons_eq_blank_iff, List.forall_mem_cons, ← ih]
    rfl

theorem tail_eq_slash_iff {line : Text} :
    tail line = .slash ↔ ∃ blanks, (∀ c ∈ blanks, isBlank c = true) ∧ line = '/' :: blanks := by
  cases line with
  | nil => simp [tail]
  | cons c line =>
    rw [tail, List.foldr_cons, Tail.cons_eq_slash_iff]
    constructor
    · rintro ⟨rfl, h⟩
      exact ⟨line, tail_eq_blank_iff.1 h, rfl⟩
    · rintro ⟨blanks, hb, heq⟩
      cases heq
      exact ⟨rfl, tail_eq_blank_iff.2 hb⟩

theorem tail_eq_closed_iff : ∀ {line : Text}, tail line = .closed ↔
    ∃ s blanks, (∀ c ∈ blanks, isBlank c = true) ∧ line = s ++ closeMark ++ blanks
  | [] => by simp [tail, closeMark]
  | c :: line => by
    have ih := @tail_eq_closed_iff line
    rw [tail, List.foldr_cons, Tail.cons_eq_closed_iff, ← tail, ih, tail_eq_slash_iff]
    constructor
    · rintro (⟨s, blanks, hb, rfl⟩ | ⟨rfl, blanks, hb, rfl⟩)
      · exact ⟨c :: s, blanks, hb, rfl⟩
      · exact ⟨[], blanks, hb, rfl⟩
    · rintro ⟨s, blanks, hb, heq⟩
      cases s with
      | nil =>
        simp only [closeMark, List.nil_append] at heq
        cases heq
        exact .inr ⟨rfl, blanks, hb, rfl⟩
      | cons d s =>
        cases heq
        exact .inl ⟨s, blanks, hb, rfl⟩

theorem closes_iff_tail {line : Text} : closes line = true ↔ tail line = .closed :=
  closes_iff.trans tail_eq_closed_iff.symm

end Tails

/-! ## The first comment -/

section First

/-- Lines that end a comment with their last one and not before. -/
structure IsClosed (block : List Text) : Prop where
  nonempty : block ≠ []
  inside : ∀ t ∈ block.dropLast, closes t = false
  closing : ∀ t ∈ block.getLast?, closes t = true

theorem isClosed_singleton {line : Text} : IsClosed [line] ↔ closes line = true :=
  ⟨fun h => h.closing line rfl, fun h => ⟨by simp, by simp, by simpa using h⟩⟩

theorem isClosed_cons {line : Text} {block : List Text} (hne : block ≠ []) :
    IsClosed (line :: block) ↔ closes line = false ∧ IsClosed block := by
  have hlast : (line :: block).getLast? = block.getLast? := by
    rw [← List.singleton_append, List.getLast?_append_of_ne_nil _ hne]
  constructor
  · rintro ⟨-, hin, hcl⟩
    rw [List.dropLast_cons_of_ne_nil hne, List.forall_mem_cons] at hin
    exact ⟨hin.1, hne, hin.2, hlast ▸ hcl⟩
  · rintro ⟨hl, -, hin, hcl⟩
    refine ⟨by simp, ?_, hlast ▸ hcl⟩
    rw [List.dropLast_cons_of_ne_nil hne, List.forall_mem_cons]
    exact ⟨hl, hin⟩

/-- Lines have none that ends a comment, or are cut behind the first one that does. -/
theorem closes_eq_false_or_exists_isClosed : ∀ lines : List Text,
    (∀ text ∈ lines, DocComment.closes text = false) ∨ ∃ block below, lines = block ++ below ∧ IsClosed block
  | [] => .inl (by simp)
  | line :: rest => by
    cases hline : DocComment.closes line with
    | true => exact .inr ⟨[line], rest, rfl, isClosed_singleton.2 hline⟩
    | false =>
      rcases closes_eq_false_or_exists_isClosed rest with hrest | ⟨block, below, rfl, hclosed⟩
      · exact .inl (List.forall_mem_cons.2 ⟨hline, hrest⟩)
      · exact .inr ⟨line :: block, below, rfl, (isClosed_cons hclosed.nonempty).2 ⟨hline, hclosed⟩⟩

theorem untilClose?_eq_some_iff : ∀ {lines block : List Text}, untilClose? lines = some block ↔
    ∃ taken post, lines = taken ++ post ∧ IsClosed taken ∧ block = taken.map trim
  | [], block => by
    simp only [untilClose?, reduceCtorEq, false_iff, not_exists, not_and]
    intro taken post heq h
    exact absurd (List.append_eq_nil_iff.1 heq.symm).1 h.nonempty
  | line :: rest, block => by
    rw [untilClose?]
    cases hc : closes line with
    | true =>
      simp only [if_true, Option.some.injEq]
      constructor
      · rintro rfl
        exact ⟨[line], rest, rfl, isClosed_singleton.2 hc, rfl⟩
      · rintro ⟨taken, post, heq, h, rfl⟩
        match taken, heq, h with
        | [], _, h => exact absurd rfl h.nonempty
        | [_], heq, _ => cases heq; rfl
        | _ :: _ :: _, heq, h =>
          cases heq
          have := ((isClosed_cons (by simp)).1 h).1
          rw [hc] at this
          cases this
    | false =>
      simp only [Bool.false_eq_true, if_false, Option.map_eq_some_iff, untilClose?_eq_some_iff]
      constructor
      · rintro ⟨block, ⟨taken, post, rfl, h, rfl⟩, rfl⟩
        exact ⟨line :: taken, post, rfl, (isClosed_cons h.nonempty).2 ⟨hc, h⟩, rfl⟩
      · rintro ⟨taken, post, heq, h, rfl⟩
        match taken, heq, h with
        | [], _, h => exact absurd rfl h.nonempty
        | [_], heq, h =>
          cases heq
          rw [isClosed_singleton.1 h] at hc
          cases hc
        | _ :: t :: taken, heq, h =>
          cases heq
          exact ⟨_, ⟨t :: taken, post, rfl, ((isClosed_cons (by simp)).1 h).2, rfl⟩, rfl⟩

/-- A comment that no line before it begins. -/
structure IsFirst (pre block : List Text) : Prop where
  before : ∀ t ∈ pre, opens t = false
  opening : ∀ t ∈ block.head?, opens t = true
  closed : IsClosed block

theorem firstFrom?_eq_some_iff : ∀ {lines : List Text} {number : Nat} {comment : DocComment},
    firstFrom? number lines = some comment ↔ ∃ pre block post, lines = pre ++ block ++ post ∧ IsFirst pre block ∧
      comment = ⟨number + pre.length, number + pre.length + block.length - 1, block.map trim⟩
  | [], number, comment => by
    simp only [firstFrom?, reduceCtorEq, false_iff, not_exists, not_and]
    intro pre block post heq h
    have hnil := (List.append_eq_nil_iff.1 (List.append_eq_nil_iff.1 heq.symm).1).2
    exact absurd hnil h.closed.nonempty
  | line :: rest, number, comment => by
    rw [firstFrom?]
    cases ho : opens line with
    | true =>
      simp only [if_true, Option.map_eq_some_iff, untilClose?_eq_some_iff]
      constructor
      · rintro ⟨_, ⟨block, post, heq, h, rfl⟩, rfl⟩
        refine ⟨[], block, post, heq, ⟨by simp, ?_, h⟩, by simp⟩
        cases block with
        | nil => exact absurd rfl h.nonempty
        | cons t block => cases heq; simpa using ho
      · rintro ⟨pre, block, post, heq, h, rfl⟩
        cases pre with
        | nil => exact ⟨_, ⟨block, post, heq, h.closed, rfl⟩, by simp⟩
        | cons t pre =>
          cases heq
          exact absurd (h.before line List.mem_cons_self) (by simp [ho])
    | false =>
      simp only [Bool.false_eq_true, if_false, firstFrom?_eq_some_iff]
      constructor
      · rintro ⟨pre, block, post, rfl, h, rfl⟩
        refine ⟨line :: pre, block, post, rfl, ⟨by simpa [ho] using h.before, h.opening, h.closed⟩, ?_⟩
        simp only [List.length_cons, mk.injEq, and_true]
        omega
      · rintro ⟨pre, block, post, heq, h, rfl⟩
        cases pre with
        | nil =>
          cases block with
          | nil => exact absurd rfl h.closed.nonempty
          | cons t block =>
            cases heq
            have := h.opening line rfl
            rw [ho] at this
            cases this
        | cons t pre =>
          cases heq
          refine ⟨pre, block, post, rfl, ⟨fun t ht => h.before t (List.mem_cons_of_mem _ ht), h.opening, h.closed⟩, ?_⟩
          simp only [List.length_cons, mk.injEq, and_true]
          omega

/-- **The first comment.** It is the block from the first line that begins a comment to the next that ends one. -/
theorem first?_eq_some_iff {lines : List Text} {comment : DocComment} :
    first? lines = some comment ↔ ∃ pre block post, lines = pre ++ block ++ post ∧ IsFirst pre block ∧
      comment = ⟨pre.length + 1, pre.length + block.length, block.map trim⟩ := by
  rw [first?, firstFrom?_eq_some_iff]
  refine exists_congr fun pre => exists_congr fun block => exists_congr fun post => ?_
  rw [Nat.add_comm 1 pre.length, Nat.add_right_comm pre.length 1, Nat.add_sub_cancel]

/-- A block stays the first comment when its lines are replaced by lines with the same marks. -/
theorem IsFirst.map {pre block : List Text} (h : IsFirst pre block) {f : Text → Text}
    (hopens : ∀ t, opens (f t) = opens t) (hcloses : ∀ t, closes (f t) = closes t) : IsFirst pre (block.map f) := by
  refine ⟨h.before, ?_, ⟨by simpa using h.closed.nonempty, ?_, ?_⟩⟩
  · intro t ht
    rw [List.head?_map] at ht
    obtain ⟨u, hu, rfl⟩ := Option.map_eq_some_iff.1 ht
    rw [hopens, h.opening u hu]
  · intro t ht
    rw [← List.map_dropLast] at ht
    obtain ⟨u, hu, rfl⟩ := List.mem_map.1 ht
    rw [hcloses, h.closed.inside u hu]
  · intro t ht
    rw [List.getLast?_map] at ht
    obtain ⟨u, hu, rfl⟩ := Option.map_eq_some_iff.1 ht
    rw [hcloses, h.closed.closing u hu]

end First
end DocComment
end DocLint
