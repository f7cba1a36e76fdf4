import DocLint.Signature.Token
import DocLint.Proofs.Text

/-!
# Scanning and joining tokens

* A blank or a mark of one character separates the tokens of a text (`Token.scanFrom_blank`, `Token.scanFrom_mark`).
* Tokens are joined part by part, and a space depends on the two neighbours alone (`Token.join_append`).
* The text in the spacing of a signature (`Token.respaced`) has the characters of the text but for blanks
  (`Token.squeeze_respaced`). It has no other blanks than spaces, none of them around it. Commas cut it
  (`Token.respaced_comma`).
-/

namespace DocLint
namespace Token

open Text (isBlank squeeze trim)

/-! ## Scanning -/

section Scanning

theorem scanFrom_blank {c : Char} (hc : isBlank c = true) (t : Text) :
    ∀ (run s : Text), scanFrom run (s ++ c :: t) = scanFrom run s ++ scan t
  | run, [] => by simp [scanFrom, scan, hc]
  | run, d :: s => by
    simp only [List.cons_append, scanFrom, scanFrom_blank hc t _ s]
    split
    · rw [List.append_assoc]
    · split <;> simp

theorem scan_cons_blank {c : Char} (hc : isBlank c = true) (s : Text) : scan (c :: s) = scan s :=
  scanFrom_blank hc s [] []

/-- The three marks of one character. -/
theorem ofChar?_eq_some {c : Char} {mark : Token} (h : ofChar? c = some mark) :
    (c = '(' ∧ mark = openParen) ∨ (c = ')' ∧ mark = closeParen) ∨ (c = ',' ∧ mark = comma) := by
  unfold ofChar? at h
  split at h <;> cases h
  · exact .inl ⟨rfl, rfl⟩
  · exact .inr (.inl ⟨rfl, rfl⟩)
  · exact .inr (.inr ⟨rfl, rfl⟩)

theorem text_of_ofChar? {c : Char} {mark : Token} (h : ofChar? c = some mark) : mark.text = [c] := by
  rcases ofChar?_eq_some h with ⟨rfl, rfl⟩ | ⟨rfl, rfl⟩ | ⟨rfl, rfl⟩ <;> rfl

theorem isBlank_of_ofChar? {c : Char} {mark : Token} (h : ofChar? c = some mark) : isBlank c = false := by
  rcases ofChar?_eq_some h with ⟨rfl, -⟩ | ⟨rfl, -⟩ | ⟨rfl, -⟩ <;> rfl

/-- A mark of one character separates the tokens before and behind it. -/
theorem scanFrom_mark {c : Char} {mark : Token} (hmark : ofChar? c = some mark) (t : Text) :
    ∀ (run s : Text), scanFrom run (s ++ c :: t) = scanFrom run s ++ mark :: scan t
  | run, [] => by simp [scanFrom, scan, isBlank_of_ofChar? hmark, hmark]
  | run, d :: s => by
    simp only [List.cons_append, scanFrom, scanFrom_mark hmark t _ s]
    split
    · rw [List.append_assoc]
    · split <;> simp

/-- A character inside of words. -/
def isInner (c : Char) : Bool := !isBlank c && (ofChar? c).isNone

theorem isInner_iff {c : Char} : isInner c = true ↔ isBlank c = false ∧ c ∉ ['(', ')', ','] := by
  have hmark : (ofChar? c).isNone = true ↔ c ∉ ['(', ')', ','] := by
    unfold ofChar?
    split <;> simp_all
  rw [isInner, Bool.and_eq_true, Bool.not_eq_true', hmark]

theorem scanFrom_word : ∀ {w : Text}, (∀ c ∈ w, isInner c = true) → ∀ run, scanFrom run w = ofRun (run ++ w)
  | [], _, run => by simp [scanFrom]
  | c :: w, h, run => by
    obtain ⟨hc, hw⟩ := List.forall_mem_cons.1 h
    simp only [isInner, Bool.and_eq_true, Bool.not_eq_true', Option.isNone_iff_eq_none] at hc
    simp only [scanFrom, hc.1, hc.2, Bool.false_eq_true, if_false]
    rw [scanFrom_word hw, List.append_assoc, List.singleton_append]

/-- A word is scanned as one token. -/
theorem scan_word {w : Text} (hne : w ≠ []) (h : ∀ c ∈ w, isInner c = true) : scan w = [.word w] := by
  rw [scan, scanFrom_word h, List.nil_append, ofRun]
  simp [hne]

/-- A token as a scan gives it: a mark, or a word that is not empty and has inner characters only. -/
def Proper : Token → Prop
  | word w => w ≠ [] ∧ ∀ c ∈ w, isInner c = true
  | _ => True

theorem proper_word {w : Text} (h : (!w.isEmpty && w.all isInner) = true) : (word w).Proper := by
  rw [Bool.and_eq_true, Bool.not_eq_true', List.isEmpty_eq_false_iff, List.all_eq_true] at h
  exact h

/-- The words of proper tokens are those that a line can have between its blanks and marks. -/
theorem forall_proper_iff {tokens : List Token} : (∀ t ∈ tokens, t.Proper) ↔
    ∀ w, word w ∈ tokens → w ≠ [] ∧ ∀ c ∈ w, isBlank c = false ∧ c ∉ ['(', ')', ','] := by
  simp only [← isInner_iff]
  constructor
  · exact fun h w hw => h (word w) hw
  · intro h t ht
    cases t with
    | word w => exact h w ht
    | openParen | closeParen | comma => trivial

theorem proper_of_mem_scanFrom : ∀ {s run : Text}, (∀ c ∈ run, isInner c = true) → ∀ t ∈ scanFrom run s, t.Proper
  | s, run, hrun, t, ht => by
    have hofRun : t ∈ ofRun run → t.Proper := by
      intro h
      unfold ofRun at h
      split at h
      · cases h
      · rename_i hne
        rw [List.mem_singleton.1 h]
        exact ⟨by simpa using hne, hrun⟩
    cases s with
    | nil => exact hofRun ht
    | cons c s =>
      simp only [scanFrom] at ht
      split at ht
      · rcases List.mem_append.1 ht with ht | ht
        · exact hofRun ht
        · exact proper_of_mem_scanFrom (by simp) t ht
      · rename_i hblank
        split at ht
        · rename_i mark hmark
          rcases List.mem_append.1 ht with ht | ht
          · exact hofRun ht
          · rcases List.mem_cons.1 ht with rfl | ht
            · rcases ofChar?_eq_some hmark with ⟨-, rfl⟩ | ⟨-, rfl⟩ | ⟨-, rfl⟩ <;> trivial
            · exact proper_of_mem_scanFrom (by simp) t ht
        · rename_i hmark
          refine proper_of_mem_scanFrom (fun d hd => ?_) t ht
          rcases List.mem_append.1 hd with hd | hd
          · exact hrun d hd
          · rw [List.mem_singleton.1 hd]
            simp [isInner, hblank, hmark]

/-- The tokens of a text are proper. -/
theorem proper_of_mem_scan {s : Text} : ∀ t ∈ scan s, t.Proper := proper_of_mem_scanFrom (by simp)

/-- A scan loses the blanks and nothing else. -/
theorem flatMap_text_scanFrom : ∀ (s run : Text), (scanFrom run s).flatMap text = run ++ squeeze s
  | s, run => by
    have hofRun : (ofRun run).flatMap text = run := by
      unfold ofRun
      split
      · rename_i hempty
        rw [List.isEmpty_iff.1 hempty]
        rfl
      · simp [text]
    cases s with
    | nil => simpa [scanFrom, squeeze] using hofRun
    | cons c s =>
      simp only [scanFrom]
      split
      · rename_i hblank
        simp [hofRun, flatMap_text_scanFrom s [], squeeze, hblank]
      · rename_i hblank
        split
        · rename_i mark hmark
          simp [hofRun, flatMap_text_scanFrom s [], squeeze, hblank, text_of_ofChar? hmark]
        · rw [flatMap_text_scanFrom s (run ++ [c])]
          simp [squeeze, hblank]

end Scanning

/-! ## Joining -/

section Joining

/-- The space between two neighbours. -/
def space (left right : Token) : Text := if glued left right then [] else [' ']

theorem join_cons_cons (t u : Token) (rest : List Token) : join (t :: u :: rest) = t.text ++ space t u ++ join (u :: rest) :=
  rfl

/-- Tokens are joined part by part. -/
theorem join_append (last first : Token) (right : List Token) :
    ∀ left : List Token, join (left ++ last :: first :: right) =
      join (left ++ [last]) ++ space last first ++ join (first :: right)
  | [] => rfl
  | [t] => by
    simp only [List.singleton_append, join_cons_cons, List.append_assoc]
    rfl
  | t :: u :: left => by
    have ih := join_append last first right (u :: left)
    simp only [List.cons_append, join_cons_cons, List.append_assoc] at ih ⊢
    rw [ih]

theorem join_append_of_glued {left : List Token} {first : Token} (h : ∀ last ∈ left.getLast?, glued last first = true)
    (right : List Token) : join (left ++ first :: right) = join left ++ join (first :: right) := by
  rcases List.eq_nil_or_concat' left with rfl | ⟨left, last, rfl⟩
  · rfl
  · rw [List.append_assoc, List.singleton_append, join_append, space, if_pos (h last (by simp)), List.append_nil]

theorem join_openParen (tokens : List Token) : join (openParen :: tokens) = '(' :: join tokens := by
  cases tokens with
  | nil => rfl
  | cons t rest => rfl

theorem squeeze_join : ∀ tokens : List Token, squeeze (join tokens) = squeeze (tokens.flatMap text)
  | [] => rfl
  | [t] => by simp [join]
  | t :: u :: rest => by
    have ih := squeeze_join (u :: rest)
    have hspace : squeeze (space t u) = [] := by
      unfold space
      split <;> rfl
    rw [join_cons_cons, List.flatMap_cons]
    simp only [squeeze, List.filter_append] at ih hspace ⊢
    rw [ih, hspace, List.append_nil]

theorem Proper.text_ne_nil {t : Token} (h : t.Proper) : t.text ≠ [] := by
  cases t with
  | word w => exact h.1
  | openParen | closeParen | comma => simp [text]

theorem Proper.isBlank_of_mem {t : Token} (h : t.Proper) : ∀ c ∈ t.text, isBlank c = false := by
  cases t with
  | word w =>
    intro c hc
    have hinner := h.2 c hc
    simp only [isInner, Bool.and_eq_true, Bool.not_eq_true'] at hinner
    exact hinner.1
  | openParen | closeParen | comma => simp [text, isBlank]

/-- Joined tokens begin as the first of them. -/
theorem head?_join {t : Token} (ht : t.Proper) (rest : List Token) : (join (t :: rest)).head? = t.text.head? := by
  cases rest with
  | nil => rfl
  | cons u rest =>
    obtain ⟨c, s, hs⟩ := List.exists_cons_of_ne_nil ht.text_ne_nil
    rw [join_cons_cons, hs]
    rfl

/-- Joined tokens end as the last of them. -/
theorem getLast?_join {t : Token} (ht : t.Proper) : ∀ left : List Token, (join (left ++ [t])).getLast? = t.text.getLast?
  | [] => rfl
  | [u] => by
    rw [List.singleton_append, join_cons_cons]
    exact List.getLast?_append_of_ne_nil _ ht.text_ne_nil
  | u :: v :: left => by
    have ih := getLast?_join ht (v :: left)
    have hne : join (v :: left ++ [t]) ≠ [] := by
      intro hnil
      rw [hnil] at ih
      exact ht.text_ne_nil (List.getLast?_eq_none_iff.1 ih.symm)
    rw [← ih, List.cons_append, List.cons_append, join_cons_cons]
    exact List.getLast?_append_of_ne_nil _ hne

/-- Joined tokens are trimmed. -/
theorem trim_join {tokens : List Token} (h : ∀ t ∈ tokens, t.Proper) : trim (join tokens) = join tokens := by
  refine Text.trim_eq_self_iff.2 ⟨fun c hc => ?_, fun c hc => ?_⟩
  · cases tokens with
    | nil => cases hc
    | cons t rest =>
      have ht := h t List.mem_cons_self
      rw [head?_join ht] at hc
      exact ht.isBlank_of_mem c (List.mem_of_mem_head? hc)
  · rcases List.eq_nil_or_concat' tokens with rfl | ⟨left, t, rfl⟩
    · cases hc
    · have ht := h t (List.mem_append_right _ List.mem_cons_self)
      rw [getLast?_join ht] at hc
      exact ht.isBlank_of_mem c (List.mem_of_mem_getLast? hc)

/-- A blank in joined tokens is a space. -/
theorem eq_space_of_mem_join {c : Char} (hc : isBlank c = true) : ∀ {tokens : List Token}, (∀ t ∈ tokens, t.Proper) →
    c ∈ join tokens → c = ' '
  | [], _, hm => by cases hm
  | [t], h, hm => by
    rw [(h t List.mem_cons_self).isBlank_of_mem c hm] at hc
    cases hc
  | t :: u :: rest, h, hm => by
    obtain ⟨ht, hrest⟩ := List.forall_mem_cons.1 h
    rw [join_cons_cons, List.mem_append, List.mem_append] at hm
    rcases hm with (hm | hm) | hm
    · rw [ht.isBlank_of_mem c hm] at hc
      cases hc
    · unfold space at hm
      split at hm
      · cases hm
      · exact List.mem_singleton.1 hm
    · exact eq_space_of_mem_join hc hrest hm

end Joining

/-! ## Text in the spacing of a signature -/

section Respaced

/-- The text in the spacing of a signature. -/
def respaced (s : Text) : Text := join (scan s)

theorem squeeze_squeeze (s : Text) : squeeze (squeeze s) = squeeze s := by
  simp [squeeze]

/-- Respacing changes nothing but blanks. -/
theorem squeeze_respaced (s : Text) : squeeze (respaced s) = squeeze s := by
  rw [respaced, squeeze_join, scan, flatMap_text_scanFrom, List.nil_append, squeeze_squeeze]

/-- Respaced text is trimmed. -/
theorem trim_respaced (s : Text) : trim (respaced s) = respaced s := trim_join proper_of_mem_scan

/-- A character that is no blank is in the respaced text when it is in the text. -/
theorem mem_respaced_iff {c : Char} (hc : isBlank c = false) {s : Text} : c ∈ respaced s ↔ c ∈ s := by
  have hsqueeze : ∀ t : Text, c ∈ squeeze t ↔ c ∈ t := fun t => by simp [squeeze, hc]
  rw [← hsqueeze, squeeze_respaced, hsqueeze]

/-- Respaced text ends in the character that the text ends in, if it is no blank. -/
theorem getLast?_respaced {s : Text} {c : Char} (hc : isBlank c = false) (h : s.getLast? = some c) :
    (respaced s).getLast? = some c := by
  have hsqueeze : ∀ {t : Text} {d : Char}, isBlank d = false → t.getLast? = some d → (squeeze t).getLast? = some d := by
    intro t d hd ht
    obtain ⟨t, rfl⟩ := List.getLast?_eq_some_iff.1 ht
    simp [squeeze, hd]
  have hmem : c ∈ respaced s := (mem_respaced_iff hc).2 (List.mem_of_getLast? h)
  have hne : respaced s ≠ [] := List.ne_nil_of_mem hmem
  have hlast := List.getLast?_eq_some_getLast hne
  have hblank := (Text.trim_eq_self_iff.1 (trim_respaced s)).2 _ hlast
  rw [← hsqueeze hc h, ← squeeze_respaced, hsqueeze hblank hlast, hlast]

theorem respaced_cons_blank {c : Char} (hc : isBlank c = true) (s : Text) : respaced (c :: s) = respaced s :=
  congrArg join (scan_cons_blank hc s)

/-- Nothing but blanks can come behind a comma by respacing. -/
theorem respaced_comma (s t : Text) :
    ∃ gap, (∀ c ∈ gap, isBlank c = true) ∧ respaced (s ++ ',' :: t) = respaced s ++ ',' :: (gap ++ respaced t) := by
  have hscan : scan (s ++ ',' :: t) = scan s ++ comma :: scan t := scanFrom_mark rfl t [] s
  have hcomma : join (scan s ++ comma :: scan t) = respaced s ++ join (comma :: scan t) :=
    join_append_of_glued (fun last _ => by cases last <;> rfl) _
  rw [respaced, hscan, hcomma]
  cases ht : scan t with
  | nil => exact ⟨[], by simp, by simp [respaced, ht, join, text]⟩
  | cons first rest =>
    refine ⟨space comma first, fun c hc => ?_, by simp [respaced, ht, join_cons_cons, text]⟩
    unfold space at hc
    split at hc
    · cases hc
    · rw [List.mem_singleton.1 hc]
      decide

/-- A word behind a text that opens no list stays behind a space. -/
theorem respaced_append_word {s w : Text} {c : Char} (hlast : s.getLast? = some c) (hblank : isBlank c = false)
    (hopen : c ≠ '(') (hne : w ≠ []) (hw : ∀ d ∈ w, isInner d = true) : respaced (s ++ ' ' :: w) = respaced s ++ ' ' :: w := by
  have hscan : scan (s ++ ' ' :: w) = scan s ++ [.word w] := by
    rw [scan, scanFrom_blank (show isBlank ' ' = true from rfl), scan_word hne hw, scan]
  have hrespaced := getLast?_respaced hblank hlast
  rw [respaced] at hrespaced
  rcases List.eq_nil_or_concat' (scan s) with hnil | ⟨left, last, hleft⟩
  · rw [hnil] at hrespaced
    cases hrespaced
  · have hmem : last ∈ scan s := by simp [hleft]
    have hproper : last.Proper := proper_of_mem_scan last hmem
    have hspace : space last (.word w) = [' '] := by
      rw [hleft, getLast?_join hproper] at hrespaced
      cases last with
      | openParen =>
        cases hrespaced
        exact absurd rfl hopen
      | word _ | closeParen | comma => rfl
    rw [respaced, respaced, hscan, hleft, List.append_assoc, List.singleton_append, join_append, hspace]
    simp [join, text]

end Respaced
end Token
end DocLint
