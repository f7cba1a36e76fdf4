import DocLint.Proofs.Signature.Grammar
import DocLint.Proofs.Signature.SameTokens
import DocLint.Proofs.Signature.Spacing

/-!
# Signatures read again

Joined tokens are scanned back (`Token.scan_join`), and a mark that is written right behind them belongs to the last
word (`Token.scan_join_append`). The qualifiers that a signature keeps lose such a mark again
(`Signature.readQualifiers_endWith`). So the text of a signature has the parts that the line had
(`Signature.Decomposes.join`), and declares the signature itself (`Signature.ofLine?_text`).
-/

namespace DocLint

/-! ## Joined tokens -/

namespace Token

/-- The tokens of joined tokens with `mark` written behind them. -/
def endWith (mark : Text) : List Token → List Token
  | [] => ofRun mark
  | [.word w] => [.word (w ++ mark)]
  | t :: rest => t :: endWith mark rest

variable {mark : Text}

theorem endWith_cons_cons (t u : Token) (rest : List Token) :
    endWith mark (t :: u :: rest) = t :: endWith mark (u :: rest) := by
  cases t <;> rfl

theorem endWith_append_closeParen (rest : List Token) : ∀ front : List Token,
    endWith mark (front ++ .closeParen :: rest) = front ++ .closeParen :: endWith mark rest
  | [] => rfl
  | [t] => endWith_cons_cons t .closeParen rest
  | t :: u :: front => by
    have ih := endWith_append_closeParen rest (u :: front)
    rw [List.cons_append] at ih
    rw [List.cons_append, List.cons_append, endWith_cons_cons, ih]
    rfl

theorem endWith_nil : ∀ {tokens : List Token}, endWith [] tokens = tokens
  | [] => rfl
  | [t] => by cases t <;> simp [endWith, ofRun]
  | t :: u :: rest => by rw [endWith_cons_cons, endWith_nil]

/-- A token is scanned by itself when what follows it is the next token, with the space between the two. -/
theorem scan_text_append {t u : Token} (ht : t.Proper) (hu : u.Proper) {s : Text} (hs : s.head? = u.text.head?) :
    scan (t.text ++ space t u ++ s) = t :: scan s := by
  have hspace : scan (space t u ++ s) = scan s := by
    unfold space
    split
    · rfl
    · exact scan_cons_blank rfl s
  rw [List.append_assoc]
  cases t with
  | openParen | closeParen | comma => exact (scan_cons_mark rfl _).trans (congrArg _ hspace)
  | word w =>
    have hw : scan w = [.word w] := scan_word ht.1 ht.2
    cases hmark : space (.word w) u with
    | nil =>
      -- Without a space the next token is a mark.
      obtain ⟨d, s', rfl⟩ : ∃ d s', s = d :: s' := List.exists_cons_of_ne_nil fun hnil => by
        rw [hnil] at hs
        exact hu.text_ne_nil (List.head?_eq_none_iff.1 hs.symm)
      have hd : ofChar? d = some u := by
        cases u with
        | word _ => cases hmark
        | openParen | closeParen | comma =>
          cases hs
          rfl
      rw [text, List.nil_append, scan, scanFrom_mark hd, ← scan, hw, scan_cons_mark hd]
      rfl
    | cons c gap =>
      have hgap : c :: gap = [' '] := by
        rw [← hmark]
        cases u with
        | word _ => rfl
        | openParen | closeParen | comma => cases hmark
      rw [hgap, text, List.singleton_append, scan_append_blank rfl, hw]
      rfl

/-- **Scanning undoes joining.** A mark behind the last word is scanned as a part of this word. -/
theorem scan_join_append (hmark : ∀ c ∈ mark, isInner c = true) : ∀ {tokens : List Token}, (∀ t ∈ tokens, t.Proper) →
    scan (join tokens ++ mark) = endWith mark tokens
  | [], _ => scanFrom_word hmark []
  | [t], h => by
    have ht := h t List.mem_cons_self
    cases t with
    | openParen | closeParen | comma => exact (scan_cons_mark rfl mark).trans (congrArg _ (scanFrom_word hmark []))
    | word w => exact scan_word (List.append_ne_nil_of_left_ne_nil ht.1 _) (List.forall_mem_append.2 ⟨ht.2, hmark⟩)
  | t :: u :: rest, h => by
    obtain ⟨ht, hrest⟩ := List.forall_mem_cons.1 h
    have hu := hrest u List.mem_cons_self
    have hhead : (join (u :: rest) ++ mark).head? = u.text.head? := by
      rw [List.head?_append, head?_join hu]
      obtain ⟨c, w, hw⟩ := List.exists_cons_of_ne_nil hu.text_ne_nil
      rw [hw]
      rfl
    rw [join_cons_cons, List.append_assoc, scan_text_append ht hu hhead, scan_join_append hmark hrest,
      endWith_cons_cons]

theorem scan_join {tokens : List Token} (h : ∀ t ∈ tokens, t.Proper) : scan (join tokens) = tokens := by
  have hjoin := scan_join_append (List.forall_mem_nil _) h
  rwa [List.append_nil, endWith_nil] at hjoin

/-- **The lists that joining and scanning give back** are those whose words are not empty and have no blank, parenthesis
or comma. The tokens of a line are such a list, so a line that is respaced keeps its tokens. -/
theorem scan_join_eq_self_iff :
    (∀ tokens : List Token, scan (join tokens) = tokens ↔
      ∀ w, word w ∈ tokens → w ≠ [] ∧ ∀ c ∈ w, Text.isBlank c = false ∧ c ∉ ['(', ')', ',']) ∧
    ∀ line : Text, scan (join (scan line)) = scan line := by
  refine ⟨fun tokens => ?_, fun line => scan_join proper_of_mem_scan⟩
  rw [← forall_proper_iff]
  constructor
  · intro h
    rw [← h]
    exact proper_of_mem_scan
  · exact scan_join

end Token

namespace Signature

open Text (trim)
open Token (scan leadingRun)

/-! ## Qualifiers -/

section Qualifiers

variable {mark : Text}

/-- The words that signatures keep behind their lists. -/
def keptWords : List Text := ['='] :: (qualifiers ++ definitions)

theorem IsQualifierRun.exists_word {taken kept : List Token} (h : IsQualifierRun taken kept) :
    ∀ t ∈ kept, ∃ w ∈ keptWords, t = .word w := by
  induction h with
  | nil => exact List.forall_mem_nil _
  | qualifier hword _ ih =>
    exact List.forall_mem_cons.2 ⟨⟨_, List.mem_cons_of_mem _ (List.mem_append_left _ hword), rfl⟩, ih⟩
  | glued _ hvalue _ ih | separate _ hvalue _ ih =>
    refine List.forall_mem_cons.2 ⟨⟨_, List.mem_cons_self, rfl⟩, List.forall_mem_cons.2 ⟨⟨_, ?_, rfl⟩, ih⟩⟩
    exact List.mem_cons_of_mem _ (List.mem_append_right _ hvalue)

/-- The marks that a signature can end with. -/
def endMarks : List Text := [[], [';'], ['}']]

theorem endMark_mem (line : Text) : endMark line ∈ endMarks := by
  rcases isEndMark_endMark line with ⟨h | h, -⟩ | ⟨h, -⟩ <;> simp [endMarks, h]

theorem isInner_of_mem_endMarks (h : mark ∈ endMarks) : ∀ c ∈ mark, Token.isInner c = true := by
  have hall : ∀ mark ∈ endMarks, mark.all Token.isInner = true := by decide
  exact List.all_eq_true.1 (hall mark h)

theorem endMark_append {s : Text} (hs : endMark s = []) (h : mark ∈ endMarks) : endMark (s ++ mark) = mark := by
  simp only [endMarks, List.mem_cons, List.not_mem_nil, or_false] at h
  rcases h with rfl | rfl | rfl
  · rw [List.append_nil, hs]
  · simp [endMark]
  · simp [endMark]

/-- A kept word has no mark at its end, and loses the one that is written there. -/
theorem keptWords_facts : ∀ w ∈ keptWords, (!w.isEmpty && w.all Token.isInner) = true ∧ endMark w = [] ∧
    ∀ mark ∈ endMarks, unended (w ++ mark) = w := by decide

theorem readQualifiers_ofRun (hmark : mark ∈ endMarks) : readQualifiers (Token.ofRun mark) = [] := by
  have hnone : ∀ c, isTerminator c = true → readQualifiers [.word [c]] = [] := fun c hc => by
    have hunended : unended [c] = [] := by simp [unended, Text.dropEndWhile, hc]
    rw [readQualifiers.eq_def]
    simp [hunended, qualifiers]
  simp only [endMarks, List.mem_cons, List.not_mem_nil, or_false] at hmark
  rcases hmark with rfl | rfl | rfl
  · exact readQualifiers.eq_def []
  · exact hnone ';' rfl
  · exact hnone '}' rfl

theorem readQualifiers_qualifier {word : Text} (h : unended word ∈ qualifiers) (rest : List Token) :
    readQualifiers (.word word :: rest) = .word (unended word) :: readQualifiers rest := by
  rw [readQualifiers.eq_def]
  exact if_pos (List.contains_iff_mem.2 h)

theorem readQualifiers_definition {value : Text} (h : unended value ∈ definitions) (rest : List Token) :
    readQualifiers (.word ['='] :: .word value :: rest) =
      .word ['='] :: .word (unended value) :: readQualifiers rest := by
  have hequal : unended ['='] = ['='] := by decide
  rw [readQualifiers.eq_def]
  simp [hequal, h, not_mem_qualifiers]

/-- A mark goes to the last kept word, or stands alone when none is kept. -/
theorem endWith_kept {w : Text} (kept : List Token) : ∃ mark' ∈ [[], mark],
    Token.endWith mark (.word w :: kept) = .word (w ++ mark') :: if kept = [] then [] else Token.endWith mark kept := by
  cases kept with
  | nil => exact ⟨mark, by simp, rfl⟩
  | cons t kept => exact ⟨[], by simp, by rw [List.append_nil, Token.endWith_cons_cons, if_neg (List.cons_ne_nil _ _)]⟩

/-- **Kept qualifiers are read again** as they are, with the mark at their end taken off. -/
theorem readQualifiers_endWith {taken kept : List Token} (h : IsQualifierRun taken kept) (hmark : mark ∈ endMarks) :
    readQualifiers (Token.endWith mark kept) = kept := by
  have hrest : ∀ {kept : List Token}, readQualifiers (Token.endWith mark kept) = kept →
      readQualifiers (if kept = [] then [] else Token.endWith mark kept) = kept := by
    intro kept hkept
    split
    · rename_i hnil
      rw [hnil]
      rfl
    · exact hkept
  have hunended : ∀ {w mark' : Text}, w ∈ keptWords → mark' ∈ [[], mark] → unended (w ++ mark') = w := by
    intro w mark' hw hmark'
    refine (keptWords_facts w hw).2.2 mark' ?_
    rcases List.mem_pair.1 hmark' with rfl | rfl
    · decide
    · exact hmark
  have hdefinition : ∀ {value : Text} {kept : List Token}, value ∈ definitions →
      readQualifiers (Token.endWith mark kept) = kept →
      readQualifiers (Token.endWith mark (.word ['='] :: .word value :: kept)) = .word ['='] :: .word value :: kept := by
    intro value kept hvalue ih
    obtain ⟨mark', hmark', heq⟩ := @endWith_kept mark value kept
    have hvalue' := hunended (List.mem_cons_of_mem _ (List.mem_append_right _ hvalue)) hmark'
    rw [Token.endWith_cons_cons, heq, readQualifiers_definition (hvalue'.symm ▸ hvalue), hvalue', hrest ih]
  induction h with
  | nil => exact readQualifiers_ofRun hmark
  | @qualifier word _ kept hword _ ih =>
    obtain ⟨mark', hmark', heq⟩ := @endWith_kept mark (unended word) kept
    have hword' := hunended (List.mem_cons_of_mem _ (List.mem_append_left _ hword)) hmark'
    rw [heq, readQualifiers_qualifier (hword'.symm ▸ hword), hword', hrest ih]
  | glued _ hvalue _ ih | separate _ hvalue _ ih => exact hdefinition hvalue ih

end Qualifiers

/-! ## Texts of signatures -/

section Texts

theorem isRemark_eq_leadingRun (s : Text) : isRemark s = isRemark (leadingRun s) := by
  have hprefix : ∀ {mark : Text}, mark ∈ remarkMarks → (mark <+: s ↔ mark <+: leadingRun s) := by
    intro mark hmark
    have hall : ∀ mark ∈ remarkMarks, mark.all Token.isInner = true := by decide
    have hinner := List.all_eq_true.1 (hall mark hmark)
    constructor
    · rintro ⟨rest, rfl⟩
      rw [leadingRun, List.takeWhile_append_of_pos hinner]
      exact List.prefix_append _ _
    · exact fun h => h.trans (List.takeWhile_prefix _)
  rw [Bool.eq_iff_iff, isRemark_iff, isRemark_iff]
  exact exists_congr fun mark => and_congr_right hprefix

open Token (join endWith)

/-- The signature is made of the tokens before its name, its list, the qualifiers that it keeps, and a mark. -/
structure IsMadeOf (s : Signature) (lead list kept : List Token) (mark : Text) : Prop where
  returnType_eq : s.returnType = if s.form = .method then returnTypeOf lead s.name else []
  form_eq : s.form = formOf lead s.name
  text_eq : s.text = join (lead ++ [.word s.name, .openParen] ++ list ++ [.closeParen] ++ kept) ++ mark
  proper : ∀ t ∈ lead ++ [.word s.name, .openParen] ++ list ++ [.closeParen] ++ kept, t.Proper
  run : ∃ taken, IsQualifierRun taken kept
  mark_mem : mark ∈ endMarks

variable {line name : Text} {s : Signature} {tokens lead list after kept : List Token} {mark : Text}

theorem isMadeOf_of_ofLine? (h : ofLine? line = some s) : isRemark (trim line) = false ∧ ∃ lead list after,
    Decomposes (scan (trim line)) lead s.name list after ∧
      IsMadeOf s lead list (readQualifiers after) (endMark (trim line)) := by
  obtain ⟨-, hremark, lead, name, list, after, hparts, rfl⟩ := ofLine?_eq_some_iff.1 h
  obtain ⟨taken, hrun⟩ := exists_isLongestRun after
  refine ⟨hremark, lead, list, after, hparts, rfl, rfl, rfl, fun t ht => ?_, ⟨taken, hrun.run⟩, endMark_mem _⟩
  rcases List.mem_append.1 ht with ht | ht
  · refine Token.proper_of_mem_scan (s := trim line) t ?_
    rw [hparts.tokens_eq]
    exact List.mem_append_left _ ht
  · obtain ⟨w, hw, rfl⟩ := hrun.run.exists_word t ht
    exact Token.proper_word (keptWords_facts w hw).1

/-- If the tokens do not begin with a parenthesis, none opens before the list. -/
theorem Decomposes.openParen_not_mem (h : Decomposes tokens lead name list after)
    (hfirst : tokens.head? ≠ some .openParen) : Token.openParen ∉ lead ++ [.word name] := by
  have htail := h.opening
  have htokens := h.tokens_eq
  cases lead with
  | nil => simp
  | cons t lead =>
    refine fun hmem => (List.mem_cons.1 hmem).elim (fun heq => hfirst ?_) htail
    rw [htokens, ← heq]
    rfl

/-- If a line does not begin with a parenthesis, none opens before the list of its declaration. -/
theorem openParen_not_mem_lead (h : Decomposes (scan (trim line)) lead name list after)
    (hopen : (trim line).head? ≠ some '(') : Token.openParen ∉ lead := by
  have hhead := (Text.trim_eq_self_iff.1 (Text.trim_trim line)).1
  exact fun hmem => h.openParen_not_mem (fun hfirst => hopen (Token.head?_eq_of_scan hhead hfirst))
    (List.mem_append_left _ hmem)

namespace IsMadeOf

variable (h : IsMadeOf s lead list kept mark)
include h

theorem scan_text : scan s.text = lead ++ [.word s.name, .openParen] ++ list ++ .closeParen :: endWith mark kept := by
  rw [h.text_eq, Token.scan_join_append (isInner_of_mem_endMarks h.mark_mem) h.proper, List.append_assoc _ [_],
    List.singleton_append, Token.endWith_append_closeParen]

/-- The text has the parts that it is written from. -/
theorem decomposes (hparts : Decomposes tokens lead s.name list after) :
    Decomposes (scan s.text) lead s.name list (endWith mark kept) where
  tokens_eq := by rw [h.scan_text, List.append_assoc _ [_], List.singleton_append]
  opening := hparts.opening
  balanced := hparts.balanced
  name := hparts.name
  plain := hparts.plain

theorem trim_text : trim s.text = s.text := by
  obtain ⟨hhead, hlast⟩ := Text.trim_eq_self_iff.1 (Token.trim_join h.proper)
  have hmark : ∀ c ∈ mark, Text.isBlank c = false := fun c hc =>
    Token.isBlank_of_isInner (isInner_of_mem_endMarks h.mark_mem c hc)
  rw [h.text_eq]
  refine Text.trim_eq_self_iff.2 ⟨fun c hc => ?_, fun c hc => ?_⟩
  · rw [List.head?_append, Option.mem_def, Option.or_eq_some_iff] at hc
    exact hc.elim (hhead c) fun hc => hmark c (List.mem_of_head? hc.2)
  · rw [List.getLast?_append, Option.mem_def, Option.or_eq_some_iff] at hc
    exact hc.elim (fun hc => hmark c (List.mem_of_getLast? hc)) fun hc => hlast c hc.2

/-- The text is in one line. -/
theorem lineFeed_not_mem_text : '\n' ∉ s.text := by
  intro hmem
  rw [h.text_eq] at hmem
  rcases List.mem_append.1 hmem with hmem | hmem
  · exact absurd (Token.eq_space_of_mem_join rfl h.proper hmem) (by decide)
  · exact absurd (isInner_of_mem_endMarks h.mark_mem _ hmem) (by decide)

/-- The text ends with the mark and with no other. -/
theorem endMark_text : endMark s.text = mark := by
  have hlast : endMark (join (lead ++ [.word s.name, .openParen] ++ list ++ [.closeParen] ++ kept)) = [] := by
    have hproper := h.proper
    rcases List.eq_nil_or_concat' kept with rfl | ⟨front, last, rfl⟩
    · rw [List.append_nil] at hproper ⊢
      rw [endMark, Token.getLast?_join (hproper _ (by simp))]
      rfl
    · obtain ⟨taken, hrun⟩ := h.run
      obtain ⟨w, hw, rfl⟩ := hrun.exists_word last (by simp)
      rw [← List.append_assoc] at hproper ⊢
      rw [endMark, Token.getLast?_join (hproper _ (by simp))]
      exact (keptWords_facts w hw).2.1
  rw [h.text_eq, endMark_append hlast h.mark_mem]

/-- A text with the tokens of the signature is a remark only if the line with these tokens is one. -/
theorem isRemark_text (hparts : Decomposes (scan (trim line)) lead s.name list after) :
    isRemark s.text = isRemark (trim line) := by
  have hblank : ∀ {u : Text}, trim u = u → ∀ c ∈ u.head?, Text.isBlank c = false := fun hu =>
    (Text.trim_eq_self_iff.1 hu).1
  have hfirst : ∀ rest rest' : List Token, (lead ++ [Token.word s.name, .openParen] ++ list ++ rest).head? =
      (lead ++ [Token.word s.name, .openParen] ++ list ++ rest').head? := fun rest rest' => by
    cases lead <;> rfl
  have hrun : leadingRun s.text = leadingRun (trim line) := by
    refine Token.leadingRun_congr (hblank h.trim_text) (hblank (Text.trim_trim line)) ?_
    rw [h.scan_text, hparts.tokens_eq, List.append_assoc _ [_]]
    exact hfirst _ _
  rw [isRemark_eq_leadingRun, hrun, ← isRemark_eq_leadingRun]

end IsMadeOf

/-- **The text of a signature declares the signature.** -/
theorem ofLine?_text (h : ofLine? line = some s) : ofLine? s.text = some s := by
  obtain ⟨hremark, lead, list, after, hparts, hmade⟩ := isMadeOf_of_ofLine? h
  obtain ⟨taken, hrun⟩ := hmade.run
  have hne : s.text ≠ [] := fun hnil => by
    have hscan := hmade.scan_text
    rw [hnil] at hscan
    simp [scan, Token.scanFrom, Token.ofRun] at hscan
  refine ofLine?_eq_some_iff.2 ?_
  rw [hmade.trim_text, hmade.isRemark_text hparts, hmade.endMark_text]
  refine ⟨hne, hremark, lead, s.name, list, _, hmade.decomposes hparts, ?_⟩
  rw [readQualifiers_endWith hrun hmade.mark_mem, ← hmade.text_eq, ← hmade.form_eq, ← hmade.returnType_eq]

/-- The brace that ends the line is written behind the last qualifier, and taken off it again. -/
theorem ofLine?_text_brace : ∃ s, ofLine? "int get() const \x7b return value; \x7d".toList = some s ∧
    s.text = "int get() const\x7d".toList ∧ ofLine? s.text = some s := by
  have h : ofLine? "int get() const \x7b return value; \x7d".toList =
      some ⟨"int".toList, "get".toList, .method, "int get() const\x7d".toList⟩ := by decide +kernel
  exact ⟨_, h, rfl, ofLine?_text h⟩

end Texts
end Signature
end DocLint
