import Mathlib.Data.List.Chain
import DocLint.Proofs.Signature.Token

/-!
# The spacing of signatures

Which blanks a signature has is a matter of neighbours (`Token.Adjacent`): a blank is one space before a word and not
behind an opening parenthesis, and a word behind a closing parenthesis or a comma has one. Joined tokens are spaced in
this way (`Token.isSpaced_join`). A trimmed text is left alone by respacing exactly if it is (`Token.respaced_eq_self_iff`).
-/

namespace DocLint
namespace Token

open Text (isBlank trim)

/-! ## Neighbours -/

section Neighbours

/-- The second character may follow the first one in the spacing of signatures. -/
def Adjacent (c d : Char) : Prop :=
  if isBlank c then c = ' ' ∧ isInner d = true
  else if isBlank d then c ≠ '('
  else isInner d = true → c ≠ ')' ∧ c ≠ ','

instance : DecidableRel Adjacent := fun c d => by
  unfold Adjacent
  infer_instance

/-- The text is spaced as signatures are. -/
def IsSpaced (s : Text) : Prop := s.IsChain Adjacent

instance (s : Text) : Decidable (IsSpaced s) := inferInstanceAs (Decidable (s.IsChain Adjacent))

theorem isBlank_of_isInner {c : Char} (h : isInner c = true) : isBlank c = false := by
  simp only [isInner, Bool.and_eq_true, Bool.not_eq_true'] at h
  exact h.1

theorem adjacent_of_isBlank_eq_false {c d : Char} (hc : isBlank c = false) (hd : isBlank d = false) :
    Adjacent c d ↔ (isInner d = true → c ≠ ')' ∧ c ≠ ',') := by
  simp [Adjacent, hc, hd]

theorem adjacent_space {c : Char} (hc : isBlank c = false) : Adjacent c ' ' ↔ c ≠ '(' := by
  rw [Adjacent, hc, if_neg (by decide), if_pos (show isBlank ' ' = true from rfl)]

/-- A blank between two characters is a space, and the one behind it is a character of words. -/
theorem Adjacent.of_isBlank {c d : Char} (hc : isBlank c = true) (h : Adjacent c d) : c = ' ' ∧ isInner d = true := by
  rwa [Adjacent, if_pos hc] at h

theorem adjacent_of_isInner {c d : Char} (hc : isInner c = true) (hd : isInner d = true) : Adjacent c d := by
  refine (adjacent_of_isBlank_eq_false (isBlank_of_isInner hc) (isBlank_of_isInner hd)).2 fun _ => ⟨?_, ?_⟩
  all_goals
    rintro rfl
    cases hc

theorem isSpaced_word {w : Text} (h : ∀ c ∈ w, isInner c = true) : IsSpaced w :=
  (List.pairwise_of_forall_mem_list fun c hc d hd => adjacent_of_isInner (h c hc) (h d hd)).isChain

end Neighbours

/-! ## Joined tokens -/

section Joined

theorem Proper.isSpaced_text {t : Token} (h : t.Proper) : IsSpaced t.text := by
  cases t with
  | word w => exact isSpaced_word h.2
  | openParen | closeParen | comma => exact List.isChain_singleton _

/-- What two tokens have between them fits the characters on both sides of it. -/
theorem isSpaced_text_append {t u : Token} (ht : t.Proper) (hu : u.Proper) {s : Text} (hs : IsSpaced s)
    (hhead : s.head? = u.text.head?) : IsSpaced (t.text ++ space t u ++ s) := by
  have hblank : ∀ {v : Token}, v.Proper → ∀ c ∈ v.text.head?, isBlank c = false :=
    fun hv c hc => hv.isBlank_of_mem c (List.mem_of_mem_head? hc)
  have hlast : ∀ c ∈ t.text.getLast?, isBlank c = false :=
    fun c hc => ht.isBlank_of_mem c (List.mem_of_mem_getLast? hc)
  unfold space
  cases hglued : glued t u with
  | true =>
    rw [if_pos rfl, List.append_nil]
    refine ht.isSpaced_text.append hs fun c hc d hd => ?_
    rw [hhead] at hd
    refine (adjacent_of_isBlank_eq_false (hlast c hc) (hblank hu d hd)).2 fun hinner => ?_
    cases t with
    | openParen =>
      cases hc
      decide
    | word _ | closeParen | comma =>
      cases u with
      | word w => cases hglued
      | openParen | closeParen | comma =>
        cases hd
        cases hinner
  | false =>
    rw [if_neg (by decide), List.append_assoc]
    refine ht.isSpaced_text.append (hs.cons fun d hd => ?_) fun c hc d hd => ?_
    · cases u with
      | word w =>
        rw [hhead] at hd
        exact (if_pos rfl).mpr ⟨rfl, hu.2 d (List.mem_of_mem_head? hd)⟩
      | openParen | closeParen | comma =>
        cases t <;> cases hglued
    · cases hd
      have hopen : c ≠ '(' := by
        rintro rfl
        cases t with
        | openParen => cases hglued
        | word w => exact absurd (ht.2 _ (List.mem_of_mem_getLast? hc)) (by decide)
        | closeParen | comma => cases hc
      exact (adjacent_space (hlast c hc)).2 hopen

/-- Joined tokens are spaced as signatures are. -/
theorem isSpaced_join : ∀ {tokens : List Token}, (∀ t ∈ tokens, t.Proper) → IsSpaced (join tokens)
  | [], _ => List.isChain_nil
  | [t], h => (h t List.mem_cons_self).isSpaced_text
  | t :: u :: rest, h => by
    obtain ⟨ht, hrest⟩ := List.forall_mem_cons.1 h
    have hu := hrest u List.mem_cons_self
    exact isSpaced_text_append ht hu (isSpaced_join hrest) (head?_join hu rest)

end Joined

/-! ## Texts that respacing leaves alone -/

section Fixed

theorem exists_scanFrom_eq_word : ∀ {run : Text} (s : Text), run ≠ [] → ∃ w rest, scanFrom run s = .word w :: rest
  | run, [], hne => ⟨run, [], by simp [scanFrom, ofRun, hne]⟩
  | run, c :: s, hne => by
    have hofRun : ofRun run = [.word run] := by simp [ofRun, hne]
    simp only [scanFrom, hofRun]
    split
    · exact ⟨_, _, rfl⟩
    · split
      · exact ⟨_, _, rfl⟩
      · exact exists_scanFrom_eq_word s (by simp)

/-- The first token of a text is a word exactly if the text begins with a character of words. -/
theorem exists_scan_eq_cons {d : Char} (hd : isBlank d = false) (s : Text) :
    ∃ u rest, scan (d :: s) = u :: rest ∧ ∀ t, glued t u = (t == openParen || !isInner d) := by
  cases hmark : ofChar? d with
  | some mark =>
    refine ⟨mark, scan s, by simp [scan, scanFrom, hd, hmark, ofRun], fun t => ?_⟩
    rcases ofChar?_eq_some hmark with ⟨rfl, rfl⟩ | ⟨rfl, rfl⟩ | ⟨rfl, rfl⟩ <;> cases t <;> rfl
  | none =>
    obtain ⟨w, rest, hword⟩ := exists_scanFrom_eq_word s (List.cons_ne_nil d [])
    refine ⟨.word w, rest, by simpa [scan, scanFrom, hd, hmark] using hword, fun t => ?_⟩
    cases t <;> simp [glued, isInner, hd, hmark]

/-- A token before a text that begins with no blank is joined to it by what fits its first character. -/
theorem join_cons_scan (t : Token) {d : Char} (hd : isBlank d = false) (s : Text) :
    join (t :: scan (d :: s)) =
      t.text ++ (if t == openParen || !isInner d then [] else [' ']) ++ join (scan (d :: s)) := by
  obtain ⟨u, rest, hscan, hglued⟩ := exists_scan_eq_cons hd s
  rw [hscan, join_cons_cons, space, hglued]

theorem join_ofRun_append {run : Text} {d : Char} (hd : isBlank d = false) (s : Text) :
    join (ofRun run ++ scan (d :: s)) =
      run ++ (if run.isEmpty || !isInner d then [] else [' ']) ++ join (scan (d :: s)) := by
  cases run with
  | nil => rfl
  | cons c run => exact join_cons_scan (.word (c :: run)) hd s

/-- A mark is joined with what may stand right behind it. -/
theorem join_mark_scan {c d : Char} {mark : Token} (hmark : ofChar? c = some mark) (hd : isBlank d = false) {t : Text}
    (hjoin : join (scan (d :: t)) = d :: t) (h : Adjacent c d) : join (mark :: scan (d :: t)) = c :: d :: t := by
  have hc : isBlank c = false := isBlank_of_ofChar? hmark
  have hglued : (mark == openParen || !isInner d) = true := by
    have hfollows := (adjacent_of_isBlank_eq_false hc hd).1 h
    rcases ofChar?_eq_some hmark with ⟨-, rfl⟩ | ⟨rfl, -⟩ | ⟨rfl, -⟩
    · rfl
    · cases hinner : isInner d with
      | true => exact absurd rfl (hfollows hinner).1
      | false => exact Bool.or_true _
    · cases hinner : isInner d with
      | true => exact absurd rfl (hfollows hinner).2
      | false => exact Bool.or_true _
  rw [join_cons_scan mark hd, hglued, if_pos rfl, hjoin, text_of_ofChar? hmark]
  rfl

/-- A mark is joined with the word that stands behind it and a space. -/
theorem join_mark_space {c d : Char} {mark : Token} (hmark : ofChar? c = some mark) (hc : c ≠ '(')
    (hd : isInner d = true) {t : Text} (hjoin : join (scan (d :: t)) = d :: t) :
    join (mark :: scan (' ' :: d :: t)) = c :: ' ' :: d :: t := by
  have hscan : scan (' ' :: d :: t) = scan (d :: t) := scan_cons_blank rfl _
  have hglued : (mark == openParen || !isInner d) = false := by
    rw [hd, Bool.not_true, Bool.or_false, beq_eq_false_iff_ne]
    rintro rfl
    rcases ofChar?_eq_some hmark with ⟨rfl, -⟩ | ⟨-, hmark⟩ | ⟨-, hmark⟩
    · exact hc rfl
    · cases hmark
    · cases hmark
  rw [hscan, join_cons_scan mark (isBlank_of_isInner hd), hglued, if_neg (by decide), hjoin, text_of_ofChar? hmark]
  rfl

/-- A text that is spaced as signatures are is joined again as it was. -/
theorem join_scanFrom : ∀ {run s : Text}, (∀ c ∈ run, isInner c = true) → IsSpaced s →
    (run = [] → ∀ c ∈ s.head?, isBlank c = false) → (∀ c ∈ s.getLast?, isBlank c = false) →
    join (scanFrom run s) = run ++ s
  | run, [], _, _, _, _ => by
    cases run <;> simp [scanFrom, ofRun, join, text]
  | run, c :: s, hrun, hs, hhead, hlast => by
    have hlastRest : ∀ d ∈ s.getLast?, isBlank d = false := fun d hd => hlast d (List.mem_getLast?_cons hd)
    -- A text that begins with no blank is joined as it was, by induction.
    have ih : ∀ {d : Char} {t : Text}, s = d :: t → isBlank d = false → join (scan s) = s := fun heq hd =>
      join_scanFrom (by simp) hs.tail (fun _ e he => by rw [heq] at he; cases he; exact hd) hlastRest
    cases hblank : isBlank c with
    | true =>
      have hne : run ≠ [] := by
        rintro rfl
        exact absurd hblank (by simp [hhead rfl c rfl])
      cases s with
      | nil => exact absurd hblank (by simp [hlast c rfl])
      | cons d t =>
        obtain ⟨rfl, hinner⟩ := (List.isChain_cons_cons.1 hs).1.of_isBlank hblank
        have hd := isBlank_of_isInner hinner
        have hscan : scanFrom run (' ' :: d :: t) = ofRun run ++ scan (d :: t) := by
          rw [scanFrom, if_pos hblank, scan]
        rw [hscan, join_ofRun_append hd, ih rfl hd]
        simp [hne, hinner]
    | false =>
      cases hmark : ofChar? c with
      | none =>
        have hinner : isInner c = true := by simp [isInner, hblank, hmark]
        have hscan : scanFrom run (c :: s) = scanFrom (run ++ [c]) s := by simp [scanFrom, hblank, hmark]
        have hrun' : ∀ d ∈ run ++ [c], isInner d = true := List.forall_mem_append.2 ⟨hrun, by simpa using hinner⟩
        have hjoin : join (scanFrom (run ++ [c]) s) = run ++ [c] ++ s :=
          join_scanFrom hrun' hs.tail (by simp) hlastRest
        rw [hscan, hjoin, List.append_assoc, List.singleton_append]
      | some mark =>
        have hinner : isInner c = false := by simp [isInner, hmark]
        have hscan : scan (c :: s) = mark :: scan s := by simp [scan, scanFrom, hblank, hmark, ofRun]
        have hscanFrom : scanFrom run (c :: s) = ofRun run ++ scan (c :: s) := by
          rw [hscan, scanFrom, if_neg (by simp [hblank]), hmark, scan]
        rw [hscanFrom, join_ofRun_append hblank, hinner, Bool.not_false, Bool.or_true, if_pos rfl, List.append_nil, hscan]
        refine congrArg _ ?_
        cases s with
        | nil => exact text_of_ofChar? hmark
        | cons d t =>
          have hadjacent := (List.isChain_cons_cons.1 hs).1
          cases hd : isBlank d with
          | false => exact join_mark_scan hmark hd (ih rfl hd) hadjacent
          | true =>
            cases t with
            | nil => exact absurd hd (by simp [hlastRest d rfl])
            | cons e t =>
              obtain ⟨rfl, hinner⟩ := (List.isChain_cons_cons.1 hs.tail).1.of_isBlank hd
              have he := isBlank_of_isInner hinner
              have hjoin : join (scan (e :: t)) = e :: t :=
                join_scanFrom (by simp) hs.tail.tail (fun _ x hx => by cases hx; exact he)
                  fun x hx => hlastRest x (List.mem_getLast?_cons hx)
              exact join_mark_space hmark ((adjacent_space hblank).1 hadjacent) hinner hjoin

/-- **A trimmed text is left alone by respacing** exactly if it is spaced as signatures are. -/
theorem respaced_eq_self_iff {s : Text} (h : trim s = s) : respaced s = s ↔ IsSpaced s := by
  constructor
  · intro heq
    rw [← heq]
    exact isSpaced_join proper_of_mem_scan
  · intro hs
    obtain ⟨hhead, hlast⟩ := Text.trim_eq_self_iff.1 h
    exact join_scanFrom (by simp) hs (fun _ => hhead) hlast

-- The bracket behind the parenthesis is a word of its own.
example : respaced "function<void(int)>".toList = "function<void(int) >".toList := by decide

end Fixed
end Token
end DocLint
