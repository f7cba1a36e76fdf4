import DocLint.Parameter
import DocLint.Signature
import DocLint.Proofs.Signature.Token

/-!
# Brackets

A text is read with the closing brackets that it still awaits (`readBrackets`). Over a part of a text that leaves its
brackets as it found them, the three readers that count depths see only the part as a whole:

* `Parameter.untilClose_append` for the parenthesis that closes a parameter list,
* `Parameter.partsFrom_append` for the commas between parameters, which cut a list (`Parameter.parts_comma`),
* `Signature.cutAtClose_append` for the parenthesis token that closes a parameter list.

Respacing a text leaves its brackets and its outer commas as they are (`readBrackets_respaced`, `hasOuterComma_respaced`).
-/

namespace DocLint

open Parameter (isOpening isClosing)

/-! ## Reading brackets -/

section Reading

/-- The bracket that closes an opening one. -/
def closerOf? : Char → Option Char
  | '<' => some '>'
  | '[' => some ']'
  | '(' => some ')'
  | _ => none

/-- The closing brackets that are awaited after one more character, the next one first. There are none if the character
closes another bracket than the last one opened. -/
def readBracket (awaited : List Char) (c : Char) : Option (List Char) :=
  match closerOf? c with
  | some closer => some (closer :: awaited)
  | none =>
    if isClosing c then
      match awaited with
      | [] => none
      | closer :: rest => if c = closer then some rest else none
    else some awaited

/-- The closing brackets that are awaited after a text. -/
def readBrackets (awaited : List Char) (s : Text) : Option (List Char) := s.foldlM readBracket awaited

/-- A comma of the text stands outside of all brackets, those that are awaited already included. -/
def hasOuterComma : (awaited : List Char) → Text → Bool
  | _, [] => false
  | awaited, c :: rest =>
    (c == ',' && awaited.isEmpty) || (readBracket awaited c).any fun awaited => hasOuterComma awaited rest

theorem readBrackets_append (awaited : List Char) (s t : Text) :
    readBrackets awaited (s ++ t) = (readBrackets awaited s).bind fun awaited => readBrackets awaited t :=
  List.foldlM_append

theorem readBrackets_cons (awaited : List Char) (c : Char) (s : Text) :
    readBrackets awaited (c :: s) = (readBracket awaited c).bind fun awaited => readBrackets awaited s :=
  List.foldlM_cons

theorem closerOf?_eq_none_iff {c : Char} : closerOf? c = none ↔ isOpening c = false := by
  unfold closerOf?
  split
  · simp [isOpening]
  · simp [isOpening]
  · simp [isOpening]
  · simp_all [isOpening]

/-- A character that is no bracket is read over. -/
theorem readBracket_of_plain {c : Char} (ho : isOpening c = false) (hc : isClosing c = false) (awaited : List Char) :
    readBracket awaited c = some awaited := by
  simp only [readBracket, closerOf?_eq_none_iff.2 ho, hc, Bool.false_eq_true, if_false]

theorem readBrackets_of_plain {s : Text} (h : ∀ c ∈ s, isOpening c = false ∧ isClosing c = false)
    (awaited : List Char) : readBrackets awaited s = some awaited := by
  induction s with
  | nil => rfl
  | cons c s ih =>
    obtain ⟨hc, hs⟩ := List.forall_mem_cons.1 h
    rw [readBrackets_cons, readBracket_of_plain hc.1 hc.2, Option.bind_some, ih hs]

/-- The part of a text before the bracket that closes none of its own is the only one that closes all of its own. -/
theorem eq_of_closed_append {s t x y : Text} (hs : readBrackets [] s = some []) (ht : readBrackets [] t = some [])
    (heq : s ++ ']' :: x = t ++ ']' :: y) : s = t := by
  have hnone : ∀ {u : Text}, readBrackets [] u = some [] → ∀ v, readBrackets [] (u ++ ']' :: v) = none := by
    intro u hu v
    rw [readBrackets_append, hu, Option.bind_some, readBrackets_cons]
    rfl
  rcases List.append_eq_append_iff.1 heq with ⟨u, rfl, hu⟩ | ⟨u, rfl, hu⟩
  · cases u with
    | nil => rw [List.append_nil]
    | cons d u =>
      cases hu
      rw [hnone hs] at ht
      cases ht
  · cases u with
    | nil => rw [List.append_nil]
    | cons d u =>
      cases hu
      rw [hnone ht] at hs
      cases hs

theorem hasOuterComma_append (s t : Text) : ∀ awaited, hasOuterComma awaited (s ++ t) =
    (hasOuterComma awaited s || (readBrackets awaited s).any fun awaited => hasOuterComma awaited t) := by
  induction s with
  | nil => exact fun _ => rfl
  | cons c s ih =>
    intro awaited
    rw [readBrackets_cons, List.cons_append, hasOuterComma, hasOuterComma]
    cases readBracket awaited c with
    | none => simp
    | some next => simp [ih, Bool.or_assoc]

theorem hasOuterComma_of_not_mem {s : Text} (h : ',' ∉ s) : ∀ awaited, hasOuterComma awaited s = false := by
  induction s with
  | nil => exact fun _ => rfl
  | cons c s ih =>
    intro awaited
    rw [List.mem_cons, not_or] at h
    have hc : (c == ',') = false := by simpa using Ne.symm h.1
    cases hnext : readBracket awaited c <;> simp [hasOuterComma, hc, hnext, ih h.2]

/-- What reading an opening bracket, a closing one, and any other character does. -/
theorem readBracket_cases {awaited awaited' : List Char} {c : Char} (h : readBracket awaited c = some awaited') :
    (isOpening c = true ∧ isClosing c = false ∧ ∃ closer, awaited' = closer :: awaited ∧ (closer = ')' ↔ c = '(')) ∨
    (isOpening c = false ∧ isClosing c = true ∧ awaited = c :: awaited') ∨
    (isOpening c = false ∧ isClosing c = false ∧ awaited' = awaited) := by
  unfold readBracket at h
  split at h
  · rename_i closer hcloser
    cases h
    unfold closerOf? at hcloser
    split at hcloser <;> cases hcloser
    · exact .inl ⟨rfl, rfl, _, rfl, by decide⟩
    · exact .inl ⟨rfl, rfl, _, rfl, by decide⟩
    · exact .inl ⟨rfl, rfl, _, rfl, by decide⟩
  · rename_i hcloser
    have hopening : isOpening c = false := closerOf?_eq_none_iff.1 hcloser
    split at h
    · rename_i hclosing
      split at h
      · cases h
      · split at h
        · rename_i heq
          cases h
          exact .inr (.inl ⟨hopening, hclosing, by rw [heq]⟩)
        · cases h
    · rename_i hclosing
      cases h
      exact .inr (.inr ⟨hopening, by simpa using hclosing, rfl⟩)

/-- A closing bracket that is awaited stays so until it is read. -/
theorem mem_of_readBrackets {s : Text} {closer : Char} (hs : closer ∉ s) {awaited awaited' : List Char}
    (h : readBrackets awaited s = some awaited') (hmem : closer ∈ awaited) : closer ∈ awaited' := by
  induction s generalizing awaited with
  | nil =>
    cases h
    exact hmem
  | cons c s ih =>
    rw [readBrackets_cons] at h
    obtain ⟨next, hnext, hrest⟩ := Option.bind_eq_some_iff.1 h
    rw [List.mem_cons, not_or] at hs
    refine ih hs.2 hrest ?_
    rcases readBracket_cases hnext with ⟨-, -, opened, rfl, -⟩ | ⟨-, -, rfl⟩ | ⟨-, -, rfl⟩
    · exact List.mem_cons_of_mem _ hmem
    · exact (List.mem_cons.1 hmem).resolve_left hs.1
    · exact hmem

end Reading

/-! ## Text without blanks -/

section Blanks

open Text (isBlank squeeze)

theorem isOpening_of_isBlank {c : Char} (h : isBlank c = true) : isOpening c = false ∧ isClosing c = false ∧ c ≠ ',' := by
  have hne : ∀ d, isBlank d = false → c ≠ d := fun d hd => ne_of_apply_ne isBlank (by simp [h, hd])
  simp [isOpening, isClosing, hne '<' rfl, hne '[' rfl, hne '(' rfl, hne '>' rfl, hne ']' rfl, hne ')' rfl, hne ',' rfl]

theorem readBrackets_squeeze (s : Text) : ∀ awaited, readBrackets awaited (squeeze s) = readBrackets awaited s := by
  induction s with
  | nil => exact fun _ => rfl
  | cons c s ih =>
    intro awaited
    cases hc : isBlank c with
    | true =>
      obtain ⟨ho, hcl, -⟩ := isOpening_of_isBlank hc
      rw [readBrackets_cons, readBracket_of_plain ho hcl, Option.bind_some, ← ih]
      simp [squeeze, hc]
    | false =>
      have hsqueeze : squeeze (c :: s) = c :: squeeze s := by simp [squeeze, hc]
      rw [hsqueeze, readBrackets_cons, readBrackets_cons]
      exact congrArg _ (funext ih)

theorem hasOuterComma_squeeze (s : Text) : ∀ awaited, hasOuterComma awaited (squeeze s) = hasOuterComma awaited s := by
  induction s with
  | nil => exact fun _ => rfl
  | cons c s ih =>
    intro awaited
    cases hc : isBlank c with
    | true =>
      obtain ⟨ho, hcl, hcomma⟩ := isOpening_of_isBlank hc
      have hsqueeze : squeeze (c :: s) = squeeze s := by simp [squeeze, hc]
      simp [hsqueeze, ih, hasOuterComma, readBracket_of_plain ho hcl, hcomma]
    | false =>
      have hsqueeze : squeeze (c :: s) = c :: squeeze s := by simp [squeeze, hc]
      simp only [hsqueeze, hasOuterComma, ih]

/-- Respacing leaves the brackets as they are. -/
theorem readBrackets_respaced (awaited : List Char) (s : Text) :
    readBrackets awaited (Token.respaced s) = readBrackets awaited s := by
  rw [← readBrackets_squeeze, Token.squeeze_respaced, readBrackets_squeeze]

/-- Respacing leaves the commas outside of brackets as they are. -/
theorem hasOuterComma_respaced (awaited : List Char) (s : Text) :
    hasOuterComma awaited (Token.respaced s) = hasOuterComma awaited s := by
  rw [← hasOuterComma_squeeze, Token.squeeze_respaced, hasOuterComma_squeeze]

end Blanks

/-! ## Readers that count depths -/

section Depths

/-- How many closing parentheses are awaited changes at parentheses only. -/
theorem count_readBracket {awaited awaited' : List Char} {c : Char} (h : readBracket awaited c = some awaited') :
    awaited'.count ')' + (if c = ')' then 1 else 0) = awaited.count ')' + (if c = '(' then 1 else 0) := by
  rcases readBracket_cases h with ⟨-, hclosing, closer, rfl, hcloser⟩ | ⟨hopening, -, rfl⟩ | ⟨hopening, hclosing, rfl⟩
  · have hne : c ≠ ')' := by
      rintro rfl
      cases hclosing
    by_cases hc : c = '('
    · simp [hc, hcloser.2 hc]
    · have hother : ¬ closer = ')' := fun heq => hc (hcloser.1 heq)
      simp [hc, hne, hother]
  · have hne : c ≠ '(' := by
      rintro rfl
      cases hopening
    by_cases hc : c = ')'
    · simp [hc]
    · simp [hc, hne]
  · have hopen : c ≠ '(' := by
      rintro rfl
      cases hopening
    have hclose : c ≠ ')' := by
      rintro rfl
      cases hclosing
    simp [hopen, hclose]

/-- A text without parentheses leaves their number as it is. -/
theorem count_readBrackets {s : Text} (hopen : '(' ∉ s) (hclose : ')' ∉ s) {awaited awaited' : List Char}
    (h : readBrackets awaited s = some awaited') : awaited'.count ')' = awaited.count ')' := by
  induction s generalizing awaited with
  | nil =>
    cases h
    rfl
  | cons c s ih =>
    rw [readBrackets_cons] at h
    obtain ⟨next, hnext, hrest⟩ := Option.bind_eq_some_iff.1 h
    simp only [List.mem_cons, not_or] at hopen hclose
    have hcount := count_readBracket hnext
    rw [if_neg (Ne.symm hopen.1), if_neg (Ne.symm hclose.1)] at hcount
    rw [ih hopen.2 hclose.2 hrest]
    exact hcount

end Depths

namespace Parameter

/-- The parenthesis that closes a list is looked for behind a text that closes what it opens. -/
theorem untilClose_append {s : Text} {awaited awaited' : List Char} (h : readBrackets awaited s = some awaited')
    (rest : Text) : untilClose (awaited.count ')') (s ++ rest) =
      (untilClose (awaited'.count ')') rest).map (s ++ ·) := by
  induction s generalizing awaited with
  | nil =>
    cases h
    simp
  | cons c s ih =>
    rw [readBrackets_cons] at h
    obtain ⟨next, hnext, hrest⟩ := Option.bind_eq_some_iff.1 h
    have hcount := count_readBracket hnext
    have hmap : (untilClose (awaited'.count ')') rest).map (c :: s ++ ·) =
        (untilClose (next.count ')') (s ++ rest)).map (c :: ·) := by
      rw [ih hrest, Option.map_map]
      rfl
    rw [hmap, List.cons_append]
    simp only [untilClose]
    split
    · rename_i hc
      rw [if_pos hc, if_neg (by rw [hc]; decide)] at hcount
      rw [← hcount, Nat.add_zero]
    · rename_i hopen
      rw [if_neg hopen] at hcount
      split
      · rename_i hclose
        rw [if_pos hclose] at hcount
        rw [← Nat.add_zero (awaited.count ')'), ← hcount]
      · rename_i hclose
        rw [if_neg hclose, Nat.add_zero, Nat.add_zero] at hcount
        rw [hcount]

/-- The first opening parenthesis begins the list. -/
theorem list?_append {front : Text} (h : '(' ∉ front) (rest : Text) : list? (front ++ '(' :: rest) = untilClose 0 rest := by
  induction front with
  | nil => rfl
  | cons c front ih =>
    obtain ⟨hc, hfront⟩ := not_or.1 (mt List.mem_cons.2 h)
    rw [List.cons_append, list?, if_neg (Ne.symm hc), ih hfront]

/-- Puts a text before the first text of a list. -/
def prepend (s : Text) (parts : List Text) : List Text := s.foldr Text.consHead parts

theorem prepend_cons (s head : Text) (rest : List Text) : prepend s (head :: rest) = (s ++ head) :: rest := by
  induction s with
  | nil => rfl
  | cons c s ih =>
    rw [prepend, List.foldr_cons, ← prepend, ih]
    rfl

/-- A text without outer commas stays in one part if it closes what it opens. -/
theorem partsFrom_append {s : Text} {awaited awaited' : List Char} (h : readBrackets awaited s = some awaited')
    (hcomma : hasOuterComma awaited s = false) (rest : Text) :
    partsFrom awaited.length (s ++ rest) = prepend s (partsFrom awaited'.length rest) := by
  induction s generalizing awaited with
  | nil =>
    cases h
    rfl
  | cons c s ih =>
    rw [readBrackets_cons] at h
    obtain ⟨next, hnext, hrest⟩ := Option.bind_eq_some_iff.1 h
    rw [hasOuterComma, hnext, Option.any_some, Bool.or_eq_false_iff] at hcomma
    obtain ⟨houter, hcomma⟩ := hcomma
    have hprepend : prepend (c :: s) (partsFrom awaited'.length rest) =
        Text.consHead c (partsFrom next.length (s ++ rest)) := by
      rw [ih hrest hcomma]
      rfl
    rw [hprepend, List.cons_append]
    simp only [partsFrom]
    rcases readBracket_cases hnext with ⟨hopening, -, closer, rfl, -⟩ | ⟨hopening, hclosing, rfl⟩ |
      ⟨hopening, hclosing, rfl⟩
    · rw [if_pos hopening, List.length_cons]
    · rw [if_neg (by simp [hopening]), if_pos hclosing, List.length_cons, Nat.add_sub_cancel]
    · have hinside : ¬ (c = ',' ∧ next.length = 0) := by
        rintro ⟨rfl, hlength⟩
        rw [List.length_eq_zero_iff.1 hlength] at houter
        cases houter
      rw [if_neg (by simp [hopening]), if_neg (by simp [hclosing]), if_neg hinside]

theorem partsFrom_ne_nil : ∀ (depth : Nat) (s : Text), partsFrom depth s ≠ []
  | _, [] => by simp [partsFrom]
  | depth, c :: s => by
    have hconsHead : ∀ parts : List Text, Text.consHead c parts ≠ [] := fun parts => by
      cases parts <;> simp [Text.consHead]
    simp only [partsFrom]
    split_ifs
    · exact hconsHead _
    · exact hconsHead _
    · simp
    · exact hconsHead _

/-- A list without outer commas is one part. -/
theorem parts_whole {s : Text} (h : readBrackets [] s = some []) (hcomma : hasOuterComma [] s = false)
    (hne : Text.trim s ≠ []) : parts s = [Text.trim s] := by
  have hfrom := partsFrom_append h hcomma []
  rw [List.append_nil] at hfrom
  rw [parts, ← List.length_nil (α := Char), hfrom, List.length_nil, partsFrom, prepend_cons, List.append_nil]
  simp [hne]

/-- A list is cut at its first outer comma. -/
theorem parts_comma {s : Text} (h : readBrackets [] s = some []) (hcomma : hasOuterComma [] s = false)
    (hne : Text.trim s ≠ []) (rest : Text) : parts (s ++ ',' :: rest) = Text.trim s :: parts rest := by
  have hfrom := partsFrom_append h hcomma (',' :: rest)
  have hcut : partsFrom 0 (',' :: rest) = [] :: partsFrom 0 rest := by simp [partsFrom, isOpening, isClosing]
  rw [parts, ← List.length_nil (α := Char), hfrom, List.length_nil, hcut, prepend_cons, List.append_nil]
  simp [hne, parts]

/-- Blanks before a list count for nothing. -/
theorem parts_append_of_blank {gap : Text} (hgap : ∀ c ∈ gap, Text.isBlank c = true) (rest : Text) :
    parts (gap ++ rest) = parts rest := by
  induction gap with
  | nil => rfl
  | cons c gap ih =>
    obtain ⟨hc, hgap⟩ := List.forall_mem_cons.1 hgap
    obtain ⟨hopening, hclosing, hcomma⟩ := isOpening_of_isBlank hc
    obtain ⟨head, tail, hfrom⟩ := List.exists_cons_of_ne_nil (partsFrom_ne_nil 0 (gap ++ rest))
    have htrim : Text.trim (c :: head) = Text.trim head := by simp [Text.trim, Text.trimStart, hc]
    rw [← ih hgap]
    simp [parts, partsFrom, hopening, hclosing, hcomma, hfrom, Text.consHead, htrim]

end Parameter

namespace Signature

/-- The token that closes a list is looked for behind tokens that close what they open. -/
theorem cutAtClose_append {tokens : List Token} (hproper : ∀ t ∈ tokens, t.Proper) {awaited awaited' : List Char}
    (h : readBrackets awaited (tokens.flatMap Token.text) = some awaited') (rest : List Token) :
    cutAtClose (awaited.count ')') (tokens ++ rest) =
      (cutAtClose (awaited'.count ')') rest).map fun cut => (tokens ++ cut.1, cut.2) := by
  induction tokens generalizing awaited with
  | nil =>
    cases h
    simp
  | cons t tokens ih =>
    obtain ⟨ht, hrestProper⟩ := List.forall_mem_cons.1 hproper
    rw [List.flatMap_cons, readBrackets_append] at h
    obtain ⟨next, hnext, hrest⟩ := Option.bind_eq_some_iff.1 h
    have hmap : (cutAtClose (awaited'.count ')') rest).map (fun cut => (t :: tokens ++ cut.1, cut.2)) =
        (cutAtClose (next.count ')') (tokens ++ rest)).map fun cut => (t :: cut.1, cut.2) := by
      rw [ih hrestProper hrest, Option.map_map]
      rfl
    rw [hmap, List.cons_append]
    cases t with
    | word w =>
      have hinner : ∀ c ∈ w, Token.isInner c = true := ht.2
      have hopen : '(' ∉ w := fun hm => absurd (hinner _ hm) (by decide)
      have hclose : ')' ∉ w := fun hm => absurd (hinner _ hm) (by decide)
      rw [count_readBrackets hopen hclose hnext]
      rfl
    | comma =>
      cases hnext
      rfl
    | openParen =>
      cases hnext
      rw [List.count_cons_self]
      rfl
    | closeParen =>
      rw [Token.text, readBrackets_cons] at hnext
      obtain ⟨one, hone, hnil⟩ := Option.bind_eq_some_iff.1 hnext
      cases hnil
      have hcount := count_readBracket hone
      rw [if_pos rfl, if_neg (by decide)] at hcount
      rw [← Nat.add_zero (awaited.count ')'), ← hcount]
      rfl

end Signature
end DocLint
