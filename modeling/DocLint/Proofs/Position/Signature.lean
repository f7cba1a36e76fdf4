import DocLint.Proofs.Position.Access
import DocLint.Proofs.Signature.Grammar
import DocLint.Proofs.Signature.OpenList

/-!
# Signatures by positions

A declaration can be read off the tokens of a line by their positions: the first opening parenthesis that is not the
first token stands behind the name, the return type ends before the name, and the qualifiers begin behind the
parenthesis that closes the list (`Positional.readSignature`). The name has a position because the parenthesis is not
the first token; the search for the closing parenthesis begins at an opening one, so it never closes more than it has
opened; and the markers of the name and the last character of the line are cut off between characters. Hence the result
is that of `Signature.ofLine?`. Only the number of open parentheses of a line (`Positional.parenBalance`) has a bound,
which a line shorter than `2 ^ 31` bytes does not reach.
-/

namespace DocLint
namespace Positional

open Signature (cutAtClose isExpressive isSpecifier isRemark qualifiers definitions unended)
open Text (byteCount)

/-! ## The program -/

/-- The position of the first opening parenthesis that is not the first token. -/
def openAt? (words : List Token) : Option Nat := ((words.drop 1).findIdx? (· == .openParen)).map (· + 1)

/-- A name that can be called stands before the position `opening`, and nothing of an expression before the name. -/
def beginsCall (words : List Token) (opening : Nat) : Checked Bool := do
  let nameAt ← minus opening 1
  let name ← item words nameAt
  let lead ← slice words 0 nameAt
  return NameToken.isCallable name.text && !lead.any isExpressive

/-- The last two of the parts of a name are the same. -/
def isTwice (segments : List Text) (last : Text) : Checked Bool :=
  if 2 ≤ segments.length then do
    let scopeAt ← minus segments.length 2
    let scope ← item segments scopeAt
    return scope == last
  else return false

/-- What the name at a position and the token before it say about the form. -/
def classify (words : List Token) (nameAt : Nat) : Checked MethodForm := do
  let name ← item words nameAt
  let segments := NameToken.segments (NameToken.unmarked name.text)
  let lastAt ← minus segments.length 1
  let last ← item segments lastAt
  if last.head? = some '~' then return .destructor
  else do
    let twice ← isTwice segments last
    if twice then return .constructor
    else if 0 < nameAt then do
      let scopeAt ← minus nameAt 1
      let scope ← item words scopeAt
      match "::".toList.isSuffixOf? scope.text with
      | some scope => return if NameToken.last scope = last then .constructor else .method
      | none => return .method
    else return .method

/-- The position behind the last specifier before the position `start`. -/
def typeStart (words : List Token) : (start : Nat) → Checked Nat
  | 0 => return 0
  | start + 1 => do
    let word ← item words start
    if isSpecifier word then return start + 1 else typeStart words start

/-- The tokens before the name at a position that are no specifiers, with the markers of the name. -/
def readReturnType (words : List Token) (nameAt : Nat) (name : Text) (form : MethodForm) : Checked Text :=
  if form = .method then do
    let start ← typeStart words nameAt
    let tokens ← slice words start nameAt
    let type := Token.join tokens
    if type.isEmpty then return []
    else do
      let size ← minus name.byteCount (NameToken.unmarked name).byteCount
      let markers ← textSlice name 0 size
      return type ++ markers
  else return []

/-- The position of the parenthesis that closes the `depth` open ones, among tokens that begin at the position `i`. -/
def closingFrom : (depth i : Nat) → List Token → Checked (Option Nat)
  | _, _, [] => return none
  | depth, i, .openParen :: rest => closingFrom (depth + 1) (i + 1) rest
  | depth, i, .closeParen :: rest => do
    let depth ← minus depth 1
    if depth = 0 then return some i else closingFrom depth (i + 1) rest
  | depth, i, _ :: rest => closingFrom depth (i + 1) rest

/-- The position of the parenthesis that closes the one at the position `opening`. -/
def matchingClose (words : List Token) (opening : Nat) : Checked (Option Nat) :=
  closingFrom 0 opening (words.drop opening)

/-- The qualifiers that a word without its terminators stands for, and how many tokens behind it belong to them; `next` is
the token behind it. -/
def qualifierAt (word : Text) (next : Option Token) : Option (List Token × Nat) :=
  if qualifiers.contains word then some ([.word word], 0)
  else match word with
    | '=' :: c :: value =>
      if definitions.contains (c :: value) then some ([.word ['='], .word (c :: value)], 0) else none
    | ['='] =>
      match next with
      | some next =>
        if definitions.contains (unended next.text) then some ([.word ['='], .word (unended next.text)], 1) else none
      | none => none
    | _ => none

/-- The qualifiers among the tokens from the position `stop` on, up to the first token that is none. -/
def keptFrom (words : List Token) (stop : Nat) : Checked (List Token) :=
  if stop < words.length then do
    let token ← item words stop
    match qualifierAt (unended token.text) words[stop + 1]? with
    | some (kept, more) => do
      let others ← keptFrom words (stop + 1 + more)
      return kept ++ others
    | none => return []
  else return []
termination_by words.length - stop

/-- The semicolon or brace that a line ends with. -/
def readEndMark (line : Text) : Checked Text :=
  if line.getLast? = some ';' ∨ line.getLast? = some '}' then do
    let start ← minus line.byteCount 1
    textSlice line start line.byteCount
  else return []

/-- The signature that a line declares. -/
def readSignature (line : Text) : Checked (Option Signature) := do
  let stripped := Text.trim line
  if stripped.isEmpty || isRemark stripped then return none
  else do
    let words := Token.scan stripped
    match openAt? words with
    | none => return none
    | some opening => do
      let isCall ← beginsCall words opening
      if isCall then do
        let nameAt ← minus opening 1
        let name ← item words nameAt
        let form ← classify words nameAt
        let returnType ← readReturnType words nameAt name.text form
        match ← matchingClose words opening with
        | none => return none
        | some close => do
          let front ← slice words 0 (close + 1)
          let kept ← keptFrom words (close + 1)
          let mark ← readEndMark stripped
          let text := Token.join (front ++ kept) ++ mark
          if !text.contains '(' || !text.contains ')' then return none
          else return some ⟨returnType, name.text, form, text⟩
      else return none

/-- The number of opening parentheses less the number of closing ones. -/
def parenBalance (s : Text) : Checked Int :=
  s.foldlM (fun balance c =>
    if c = '(' then int32 (balance + 1) else if c = ')' then int32 (balance - 1) else return balance) 0

/-- The line begins a declaration whose parameter list goes on in the next line. -/
def opensDeclaration (line : Text) : Checked Bool := do
  let stripped := Text.trim line
  if stripped.isEmpty || isRemark stripped then return false
  else do
    let balance ← parenBalance stripped
    if balance ≤ 0 then return false
    else do
      let words := Token.scan stripped
      match openAt? words with
      | none => return false
      | some opening => beginsCall words opening

/-! ## The name -/

section Name

variable {words lead rest : List Token} {name : Text}

/-- The tokens of a line that has an opening parenthesis behind its first token, by the name before it. -/
theorem openAt?_cases (words : List Token) :
    (openAt? words = none ∧ DeclarationHead.ofTokens? words = none) ∨
      ∃ lead name rest, words = lead ++ name :: .openParen :: rest ∧ openAt? words = some (lead.length + 1) ∧
        DeclarationHead.ofTokens? words =
          if NameToken.isCallable name.text && !lead.any isExpressive then some ⟨lead, name.text, rest⟩ else none := by
  cases words with
  | nil => exact .inl ⟨rfl, rfl⟩
  | cons first words =>
    by_cases hopen : Token.openParen ∈ words
    · obtain ⟨inside, rest, rfl, hinside⟩ := List.eq_append_cons_of_mem hopen
      have hcut := Signature.cutAtOpen_append rest hinside
      obtain ⟨lead, name, hhead⟩ : ∃ lead name, first :: inside = lead ++ [name] :=
        (List.eq_nil_or_concat' (first :: inside)).resolve_left (List.cons_ne_nil _ _)
      have hat : openAt? (first :: (inside ++ .openParen :: rest)) = some (lead.length + 1) := by
        have hlength := congrArg List.length hhead
        have hnone : inside.findIdx? (· == Token.openParen) = none :=
          List.findIdx?_eq_none_iff.2 fun t ht => beq_eq_false_iff_ne.2 fun heq => hinside (heq ▸ ht)
        rw [List.length_cons, List.length_append, List.length_singleton] at hlength
        rw [openAt?, List.drop_one, List.tail_cons, List.findIdx?_append, hnone, Nat.succ_inj.1 hlength, Option.none_or,
          List.findIdx?_cons]
        simp
      refine .inr ⟨lead, name, rest, ?_, hat, ?_⟩
      · rw [← List.cons_append, hhead, List.append_assoc]
        rfl
      · simp only [DeclarationHead.ofTokens?, hcut, hhead, List.getLast?_concat, List.dropLast_concat]
        cases name with
        | word name => rfl
        | openParen | closeParen | comma => rfl
    · refine .inl ⟨?_, ?_⟩
      · have hnone : words.findIdx? (· == Token.openParen) = none :=
          List.findIdx?_eq_none_iff.2 fun t ht => beq_eq_false_iff_ne.2 fun heq => hopen (heq ▸ ht)
        rw [openAt?, List.drop_one, List.tail_cons, hnone]
        rfl
      · have hcut : Signature.cutAtOpen words = none := by
          rw [Option.eq_none_iff_forall_ne_some]
          rintro ⟨inside, rest⟩ heq
          exact hopen ((Signature.cutAtOpen_eq_some_iff.1 heq).1 ▸ List.mem_append_right _ List.mem_cons_self)
        simp only [DeclarationHead.ofTokens?, hcut]

theorem beginsCall_eq (lead : List Token) (name : Token) (rest : List Token) :
    beginsCall (lead ++ name :: rest) (lead.length + 1) =
      .ok (NameToken.isCallable name.text && !lead.any isExpressive) := by
  rw [beginsCall, minus_eq (Nat.le_add_left 1 _), ok_bind, Nat.add_sub_cancel, item_append, ok_bind, slice_front]
  rfl

/-- Only words name a method. -/
theorem exists_word_of_isCallable {t : Token} (h : NameToken.isCallable t.text = true) : ∃ w, t = .word w := by
  cases t with
  | word w => exact ⟨w, rfl⟩
  | openParen | closeParen | comma => cases h

theorem isTwice_eq (scopes : List Text) (last : Text) :
    isTwice (scopes ++ [last]) last = .ok (decide (scopes.getLast? = some last)) := by
  rcases List.eq_nil_or_concat' scopes with rfl | ⟨scopes, scope, rfl⟩
  · rfl
  · have htwo : (scopes ++ [scope] ++ [last]).length = scopes.length + 2 := by simp
    rw [isTwice, htwo, if_pos (Nat.le_add_left 2 _), minus_eq (Nat.le_add_left 2 _), ok_bind, Nat.add_sub_cancel,
      List.append_assoc, List.singleton_append, item_append, ok_bind, List.getLast?_concat, beq_eq_decide]
    simp only [Option.some_inj]
    rfl

theorem classify_eq (lead : List Token) (name : Text) (rest : List Token) :
    classify (lead ++ .word name :: rest) lead.length = .ok (Signature.formOf lead name) := by
  obtain ⟨scopes, last, hsegments⟩ : ∃ scopes last, NameToken.segments (NameToken.unmarked name) = scopes ++ [last] :=
    (List.eq_nil_or_concat' _).resolve_left (NameToken.segments_ne_nil _)
  have hlength : (scopes ++ [last]).length = scopes.length + 1 := List.length_append
  simp only [classify, Signature.formOf, item_append, ok_bind, Token.text, hsegments, hlength, isTwice_eq,
    minus_eq (Nat.le_add_left 1 scopes.length), Nat.add_sub_cancel, List.getLastD_concat, List.dropLast_concat]
  split
  · rfl
  · by_cases hscope : scopes.getLast? = some last
    · rw [if_pos (decide_eq_true hscope), if_pos hscope]
      rfl
    · rw [if_neg (by simpa using hscope), if_neg hscope]
      rcases List.eq_nil_or_concat' lead with rfl | ⟨lead, scope, rfl⟩
      · rfl
      · rw [List.length_append, List.length_singleton, if_pos (Nat.succ_pos _), minus_eq (Nat.le_add_left 1 _), ok_bind,
          Nat.add_sub_cancel, List.append_assoc, List.singleton_append, item_append, ok_bind, List.getLast?_concat]
        cases scope with
        | openParen | closeParen | comma => rfl
        | word w =>
          dsimp only
          cases "::".toList.isSuffixOf? w <;> rfl

end Name

/-! ## The return type -/

section ReturnType

/-- Going back from the name stops behind the last specifier or at the first token. -/
theorem typeStart_eq {before type : List Token} (htype : ∀ t ∈ type, isSpecifier t = false)
    (hbefore : ∀ t ∈ before.getLast?, isSpecifier t = true) (rest : List Token) :
    typeStart (before ++ type ++ rest) (before ++ type).length = .ok before.length := by
  induction type using List.reverseRecOn generalizing rest with
  | nil =>
    rcases List.eq_nil_or_concat' before with rfl | ⟨before, t, rfl⟩
    · rfl
    · have ht : isSpecifier t = true := hbefore t (by rw [List.getLast?_concat]; rfl)
      rw [List.append_nil, List.length_append, List.length_singleton, List.append_assoc, List.singleton_append, typeStart,
        item_append, ok_bind, if_pos ht]
      rfl
  | append_singleton type t ih =>
    have ht : ¬ isSpecifier t = true := by simp [htype t (List.mem_append_right _ List.mem_cons_self)]
    have hrest := ih (fun t ht => htype t (List.mem_append_left _ ht)) (t :: rest)
    rw [← List.append_assoc, List.length_append, List.length_singleton, List.append_assoc, List.singleton_append,
      typeStart, item_append, ok_bind, if_neg ht, hrest]

/-- The markers of a name are cut off between characters. -/
theorem markers_eq (name : Text) : ∃ size, minus name.byteCount (NameToken.unmarked name).byteCount = .ok size ∧
    textSlice name 0 size = .ok (NameToken.markers name) := by
  have hname : NameToken.markers name ++ NameToken.unmarked name = name := List.takeWhile_append_dropWhile
  have hcount := Text.byteCount_append (NameToken.markers name) (NameToken.unmarked name)
  have hslice := textSlice_append [] (NameToken.markers name) (NameToken.unmarked name)
  rw [hname] at hcount
  rw [List.nil_append, Text.byteCount_nil, Nat.zero_add, hname] at hslice
  refine ⟨_, minus_eq (by omega), ?_⟩
  rwa [hcount, Nat.add_sub_cancel]

theorem readReturnType_eq (lead : List Token) (name : Text) (rest : List Token) (form : MethodForm) :
    readReturnType (lead ++ rest) lead.length name form =
      .ok (if form = .method then Signature.returnTypeOf lead name else []) := by
  rw [readReturnType]
  split
  · have hlead := List.rdropWhile_append_rtakeWhile (p := fun t => !isSpecifier t) (l := lead)
    have hbefore : ∀ t ∈ (lead.rdropWhile fun t => !isSpecifier t).getLast?, isSpecifier t = true := by
      intro t ht
      obtain ⟨hne, rfl⟩ := List.mem_getLast?_eq_getLast ht
      simpa using List.rdropWhile_last_not (fun t => !isSpecifier t) lead hne
    have htype : ∀ t ∈ lead.rtakeWhile fun t => !isSpecifier t, isSpecifier t = false := fun t ht => by
      simpa using List.mem_rtakeWhile_imp ht
    have hstart := typeStart_eq htype hbefore rest
    have hslice := slice_append (lead.rdropWhile fun t => !isSpecifier t) (lead.rtakeWhile fun t => !isSpecifier t) rest
    obtain ⟨size, hsize, hmarkers⟩ := markers_eq name
    rw [hlead] at hstart
    rw [← List.length_append, hlead] at hslice
    rw [hstart, ok_bind, hslice, ok_bind]
    dsimp only
    rw [hsize, ok_bind, hmarkers, ok_bind]
    have hreturn : Signature.returnTypeOf lead name =
        if (Token.join (lead.rtakeWhile fun t => !isSpecifier t)).isEmpty then []
        else Token.join (lead.rtakeWhile fun t => !isSpecifier t) ++ NameToken.markers name := rfl
    rw [hreturn]
    split <;> rfl
  · rfl

end ReturnType

/-! ## The list and the qualifiers -/

section List

/-- Behind an opening parenthesis, as many are open as the search has counted, and never fewer than one. -/
theorem closingFrom_eq (tokens : List Token) (depth i : Nat) :
    closingFrom (depth + 1) i tokens = .ok ((cutAtClose depth tokens).map fun cut => i + cut.1.length) := by
  induction tokens generalizing depth i with
  | nil => rfl
  | cons t tokens ih =>
    have hpassed : ∀ next, closingFrom (next + 1) (i + 1) tokens =
        .ok (((cutAtClose next tokens).map fun cut => (t :: cut.1, cut.2)).map fun cut => i + cut.1.length) := by
      intro next
      rw [ih, Option.map_map]
      simp only [Function.comp_def, List.length_cons, Nat.add_assoc, Nat.add_comm 1]
    cases t with
    | openParen => exact hpassed (depth + 1)
    | comma | word => exact hpassed depth
    | closeParen =>
      rw [closingFrom, minus_eq (Nat.le_add_left 1 depth), ok_bind, Nat.add_sub_cancel]
      cases depth with
      | zero => rfl
      | succ depth => exact hpassed depth

theorem matchingClose_eq (lead rest : List Token) :
    matchingClose (lead ++ .openParen :: rest) lead.length =
      .ok ((cutAtClose 0 rest).map fun cut => lead.length + 1 + cut.1.length) := by
  rw [matchingClose, List.drop_left, closingFrom, closingFrom_eq]

theorem qualifierAt_mark {t : Token} (h : ∀ w, t ≠ .word w) (next : Option Token) :
    qualifierAt (unended t.text) next = none := by
  cases t with
  | word w => exact absurd rfl (h w)
  | openParen | closeParen | comma => rfl

theorem qualifierAt_eq_none {word : Text} (hqualifier : ¬ qualifiers.contains word)
    (hglued : ∀ c value, word = '=' :: c :: value → False) (hseparate : word = ['='] → False) (next : Option Token) :
    qualifierAt word next = none := by
  unfold qualifierAt
  rw [if_neg hqualifier]
  split
  · exact (hglued _ _ rfl).elim
  · exact (hseparate rfl).elim
  · rfl

/-- The qualifiers that the first token stands for come before those behind them. -/
theorem readQualifiers_cons (t : Token) (tokens : List Token) : Signature.readQualifiers (t :: tokens) =
    match qualifierAt (unended t.text) tokens.head? with
    | some (kept, more) => kept ++ Signature.readQualifiers (tokens.drop more)
    | none => [] := by
  cases t with
  | openParen | closeParen | comma =>
    rw [qualifierAt_mark (by simp)]
    rfl
  | word w =>
    rw [Signature.readQualifiers.eq_def]
    dsimp only [Token.text]
    generalize unended w = word
    by_cases hqualifier : qualifiers.contains word
    · rw [if_pos hqualifier, qualifierAt.eq_def, if_pos hqualifier]
      rfl
    · rw [if_neg hqualifier]
      split
      · rename_i c value
        rw [qualifierAt.eq_def, if_neg hqualifier]
        by_cases hvalue : definitions.contains (c :: value)
        · simp only [hvalue, if_true]
          rfl
        · simp only [hvalue, if_false, Bool.false_eq_true]
      · rw [qualifierAt.eq_def, if_neg hqualifier]
        cases tokens with
        | nil => rfl
        | cons next rest =>
          cases next with
          | openParen | closeParen | comma => rfl
          | word v =>
            have htext : (Token.word v).text = v := rfl
            by_cases hvalue : definitions.contains (unended v)
            · simp only [List.head?_cons, htext, hvalue, if_true]
              rfl
            · simp only [List.head?_cons, htext, hvalue, if_false, Bool.false_eq_true]
      · rename_i hglued hseparate
        rw [qualifierAt_eq_none hqualifier hglued hseparate]

theorem le_of_qualifierAt {word : Text} {tokens kept : List Token} {more : Nat}
    (h : qualifierAt word tokens.head? = some (kept, more)) : more ≤ tokens.length := by
  unfold qualifierAt at h
  split at h
  · cases h
    exact Nat.zero_le _
  · split at h
    · split at h
      · cases h
        exact Nat.zero_le _
      · cases h
    · cases tokens with
      | nil => cases h
      | cons next rest =>
        rw [List.head?_cons] at h
        dsimp only at h
        split at h
        · cases h
          exact Nat.le_add_left 1 _
        · cases h
    · cases h

theorem keptFrom_eq (front tokens : List Token) :
    keptFrom (front ++ tokens) front.length = .ok (Signature.readQualifiers tokens) := by
  induction hn : tokens.length using Nat.strong_induction_on generalizing front tokens with
  | h n ih =>
    cases tokens with
    | nil => rw [keptFrom, List.append_nil, if_neg (Nat.lt_irrefl _)]; rfl
    | cons t tokens =>
      have hnext : (front ++ t :: tokens)[front.length + 1]? = tokens.head? := by
        rw [List.getElem?_append_right (Nat.le_add_right _ _), Nat.add_sub_cancel_left, List.getElem?_cons_succ,
          List.head?_eq_getElem?]
      rw [keptFrom, if_pos (by simp), item_append, ok_bind, hnext, readQualifiers_cons]
      cases hat : qualifierAt (unended t.text) tokens.head? with
      | none => rfl
      | some qualifier =>
        obtain ⟨kept, more⟩ := qualifier
        have hmore := le_of_qualifierAt hat
        have hrest := ih (tokens.drop more).length (by rw [← hn, List.length_drop, List.length_cons]; omega)
          (front ++ t :: tokens.take more) (tokens.drop more) rfl
        rw [List.append_assoc, List.cons_append, List.take_append_drop, List.length_append, List.length_cons,
          List.length_take_of_le hmore, ← Nat.add_assoc, Nat.add_right_comm] at hrest
        dsimp only
        rw [hrest]
        rfl

/-- The last character of a line has one byte if it is a semicolon or a brace. -/
theorem readEndMark_eq (line : Text) : readEndMark line = .ok (Signature.endMark line) := by
  rcases List.eq_nil_or_concat' line with rfl | ⟨front, c, rfl⟩
  · rfl
  · simp only [readEndMark, Signature.endMark, List.getLast?_concat, Option.some_inj]
    split
    · rename_i hc
      have hsize : byteCount [c] = 1 := by
        rcases hc with rfl | rfl <;> rfl
      have hslice := textSlice_append front [c] []
      rw [hsize, List.append_nil] at hslice
      rw [Text.byteCount_append, hsize, minus_eq (Nat.le_add_left 1 _), ok_bind, Nat.add_sub_cancel, hslice]
    · rfl

end List

/-! ## Lines -/

section Lines

variable {tokens lead inside after : List Token} {name : Text}

/-- The tokens of a declaration are written with both parentheses. -/
theorem mem_join {c : Char} (hc : Text.isBlank c = false) {t : Token} (ht : t ∈ tokens) (hmem : c ∈ t.text) :
    c ∈ Token.join tokens := by
  have hsqueeze : c ∈ Text.squeeze (Token.join tokens) := by
    rw [Token.squeeze_join]
    exact List.mem_filter.2 ⟨List.mem_flatMap.2 ⟨t, ht, hmem⟩, by rw [hc]; rfl⟩
  exact (List.mem_filter.1 hsqueeze).1

/-- **No access fails on the way to the signature of a line.** -/
theorem readSignature_eq (line : Text) : readSignature line = .ok (Signature.ofLine? line) := by
  simp only [readSignature, Signature.ofLine?]
  split
  · rfl
  · rcases openAt?_cases (Token.scan (Text.trim line)) with ⟨hat, hhead⟩ | ⟨lead, name, rest, hwords, hat, hhead⟩
    · rw [hat, hhead]
      rfl
    · rw [hat, hhead, hwords]
      dsimp only
      rw [beginsCall_eq, ok_bind]
      cases hcall : NameToken.isCallable name.text && !lead.any isExpressive with
      | false => rfl
      | true =>
        obtain ⟨name, rfl⟩ := exists_word_of_isCallable (Bool.and_eq_true_iff.1 hcall).1
        have hname : lead ++ .word name :: .openParen :: rest = (lead ++ [.word name]) ++ .openParen :: rest := by
          rw [List.append_assoc, List.singleton_append]
        have hclose := matchingClose_eq (lead ++ [.word name]) rest
        rw [← hname, List.length_append, List.length_singleton] at hclose
        rw [if_pos rfl, if_pos rfl, minus_eq (Nat.le_add_left 1 _), ok_bind, Nat.add_sub_cancel, item_append, ok_bind,
          classify_eq, ok_bind, readReturnType_eq, ok_bind, hclose, ok_bind]
        dsimp only
        cases hcut : cutAtClose 0 rest with
        | none => rfl
        | some cut =>
          obtain ⟨inside, after⟩ := cut
          obtain ⟨rfl, -⟩ := Signature.cutAtClose_eq_some_iff.1 hcut
          -- The list and its parentheses end the front, and the qualifiers are looked for behind it.
          have hlength : (lead ++ [Token.word name, .openParen] ++ inside ++ [Token.closeParen]).length =
              lead.length + 1 + 1 + inside.length + 1 := by
            simp only [List.length_append, List.length_cons, List.length_nil]
          have hfront : lead ++ .word name :: .openParen :: (inside ++ .closeParen :: after) =
              (lead ++ [.word name, .openParen] ++ inside ++ [.closeParen]) ++ after := by
            simp only [List.append_assoc, List.cons_append, List.nil_append]
          have hopen : '(' ∈ Token.join (lead ++ [.word name, .openParen] ++ inside ++ [.closeParen] ++
              Signature.readQualifiers after) := mem_join rfl (t := .openParen) (by simp) List.mem_cons_self
          have hclosed : ')' ∈ Token.join (lead ++ [.word name, .openParen] ++ inside ++ [.closeParen] ++
              Signature.readQualifiers after) := mem_join rfl (t := .closeParen) (by simp) List.mem_cons_self
          dsimp only [Option.map_some]
          rw [hfront, ← hlength, slice_front, ok_bind, keptFrom_eq, ok_bind, readEndMark_eq, ok_bind, if_neg]
          · rfl
          · rw [List.contains_iff_mem.2 (List.mem_append_left _ hopen),
              List.contains_iff_mem.2 (List.mem_append_left _ hclosed)]
            decide

/-- The count goes up and down by one for each parenthesis. -/
theorem foldlM_balance_eq (s : Text) (balance : Int) (h : balance.natAbs + (s.count '(' + s.count ')') < int32Bound) :
    s.foldlM (fun balance c =>
        if c = '(' then int32 (balance + 1) else if c = ')' then int32 (balance - 1) else return balance) balance =
      (.ok (balance + Signature.parenSurplus s) : Checked Int) := by
  induction s generalizing balance with
  | nil => exact congrArg Except.ok (Int.add_zero balance).symm
  | cons c s ih =>
    rw [List.count_cons, List.count_cons] at h
    rw [List.foldlM_cons, Signature.parenSurplus, List.count_cons, List.count_cons]
    by_cases hopen : c = '('
    · subst hopen
      simp only [beq_self_eq_true, if_true, show ('(' == ')') = false from rfl, Bool.false_eq_true, if_false] at h ⊢
      rw [int32_eq (by omega), ok_bind, ih _ (by omega), Signature.parenSurplus]
      congr 1
      omega
    · by_cases hclose : c = ')'
      · subst hclose
        simp only [beq_self_eq_true, if_true, show (')' == '(') = false from rfl, Bool.false_eq_true, if_false,
          hopen] at h ⊢
        rw [int32_eq (by omega), ok_bind, ih _ (by omega), Signature.parenSurplus]
        congr 1
        omega
      · simp only [beq_eq_false_iff_ne.2 hopen, beq_eq_false_iff_ne.2 hclose, Bool.false_eq_true, if_false, hopen,
          hclose, Nat.add_zero] at h ⊢
        exact ih balance h

/-- The count of a text stays within 32 bits when it has fewer parentheses than that. -/
theorem parenBalance_eq {s : Text} (h : s.count '(' + s.count ')' < int32Bound) :
    parenBalance s = .ok (Signature.parenSurplus s) := by
  have hstart := foldlM_balance_eq s 0 (by simpa using h)
  rwa [Int.zero_add] at hstart

/-- A line has the head of a declaration when its first opening parenthesis stands behind a name. -/
theorem beginsCall_openAt? (words : List Token) :
    (match openAt? words with
      | none => return false
      | some opening => beginsCall words opening : Checked Bool) =
      .ok (DeclarationHead.ofTokens? words).isSome := by
  rcases openAt?_cases words with ⟨hat, hhead⟩ | ⟨lead, name, rest, rfl, hat, hhead⟩
  · rw [hat, hhead]
    rfl
  · rw [hat, hhead]
    dsimp only
    rw [beginsCall_eq]
    cases NameToken.isCallable name.text && !lead.any isExpressive <;> rfl

/-- **No access fails on the way to an open declaration.** -/
theorem opensDeclaration_eq {line : Text} (h : line.count '(' + line.count ')' < int32Bound) :
    opensDeclaration line = .ok (Signature.beginsDeclaration line) := by
  have hbalance : parenBalance (Text.trim line) = .ok (Signature.parenSurplus (Text.trim line)) :=
    parenBalance_eq (by rwa [Text.count_trim rfl, Text.count_trim rfl])
  simp only [opensDeclaration, Signature.beginsDeclaration, hbalance, ok_bind, beginsCall_openAt?]
  split
  · rename_i hremark
    rw [← Bool.not_or, hremark]
    rfl
  · rename_i hremark
    rw [← Bool.not_or, Bool.not_eq_true _ |>.mp hremark]
    split
    · rename_i hle
      rw [decide_eq_false (Int.not_lt.2 hle)]
      rfl
    · rename_i hlt
      rw [decide_eq_true (Int.not_le.1 hlt)]
      rfl

end Lines

end Positional
end DocLint
