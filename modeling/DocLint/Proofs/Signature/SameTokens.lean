import DocLint.Proofs.Signature.OpenList

/-!
# Texts with the same tokens

A text begins with a run of inner characters, and this run is its first token unless it is empty
(`Token.scan_eq_append`). So two texts have the same tokens exactly if they can be read in step (`Token.inStep_iff`):
they differ in blanks only, and where a word goes on in one of them it goes on in the other. What a reader makes of a
text without regard to the blanks around marks, it makes of every text that is read in step with it.
-/

namespace DocLint
namespace Token

open Text (isBlank squeeze trim trimStart)

/-! ## The first run of a text -/

section Runs

/-- The run of inner characters that a text begins with. -/
def leadingRun (s : Text) : Text := s.takeWhile isInner

/-- A text without the run that it begins with. -/
def afterRun (s : Text) : Text := s.dropWhile isInner

theorem leadingRun_append_afterRun (s : Text) : leadingRun s ++ afterRun s = s := List.takeWhile_append_dropWhile

theorem leadingRun_append {w s : Text} (hw : ∀ c ∈ w, isInner c = true) (hs : ∀ c ∈ s.head?, isInner c = false) :
    leadingRun (w ++ s) = w ∧ afterRun (w ++ s) = s := by
  rw [leadingRun, afterRun, List.takeWhile_append_of_pos hw, List.dropWhile_append_of_pos hw]
  cases s with
  | nil => simp
  | cons c s => simp [hs c rfl]

theorem isInner_head?_afterRun (s : Text) : ∀ c ∈ (afterRun s).head?, isInner c = false := by
  intro c hc
  have hinner := List.head?_dropWhile_not isInner s
  rw [← afterRun, hc] at hinner
  simpa using hinner

theorem leadingRun_cons_of_isInner {c : Char} (hc : isInner c = true) (s : Text) :
    leadingRun (c :: s) = c :: leadingRun s := List.takeWhile_cons_of_pos hc

theorem leadingRun_cons_of_not {c : Char} (hc : isInner c = false) (s : Text) : leadingRun (c :: s) = [] :=
  List.takeWhile_cons_of_neg (by simp [hc])

theorem scan_cons_mark {c : Char} {mark : Token} (hmark : ofChar? c = some mark) (s : Text) :
    scan (c :: s) = mark :: scan s := scanFrom_mark hmark s [] []

/-- The first run is scanned by itself. -/
theorem scan_eq_append (s : Text) : scan s = ofRun (leadingRun s) ++ scan (afterRun s) := by
  have hrun : scan (leadingRun s) = ofRun (leadingRun s) :=
    scanFrom_word (fun c hc => List.mem_takeWhile_imp hc) []
  conv => lhs; rw [← leadingRun_append_afterRun s]
  cases hafter : afterRun s with
  | nil => rw [List.append_nil, hrun, scan_of_blank (by simp), List.append_nil]
  | cons c t =>
    have hc : isInner c = false := isInner_head?_afterRun s c (by rw [hafter]; rfl)
    cases hblank : isBlank c with
    | true => rw [scan_append_blank hblank, scan_cons_blank hblank, hrun]
    | false =>
      obtain ⟨mark, hmark⟩ : ∃ mark, ofChar? c = some mark :=
        Option.isSome_iff_exists.1 (by simpa [isInner, hblank] using hc)
      rw [scan_cons_mark hmark, ← hrun]
      exact scanFrom_mark hmark t [] _

theorem scan_cons_inner {c : Char} (hc : isInner c = true) (s : Text) :
    scan (c :: s) = .word (c :: leadingRun s) :: scan (afterRun s) := by
  have hafter : afterRun (c :: s) = afterRun s := List.dropWhile_cons_of_pos hc
  rw [scan_eq_append, leadingRun_cons_of_isInner hc, hafter]
  rfl

/-- A text without blanks before it begins as its first token does. -/
theorem head?_eq_of_scan {s : Text} (hs : ∀ c ∈ s.head?, isBlank c = false) {t : Token} (h : (scan s).head? = some t) :
    s.head? = t.text.head? := by
  cases s with
  | nil => cases h
  | cons c s =>
    cases hmark : ofChar? c with
    | some mark =>
      rw [scan_cons_mark hmark] at h
      cases h
      rw [text_of_ofChar? hmark]
      rfl
    | none =>
      rw [scan_cons_inner (by simp [isInner, hs c rfl, hmark])] at h
      cases h
      rfl

/-- The run that a text without blanks before it begins with is its first token, or empty when this is a mark. -/
theorem leadingRun_eq {s : Text} (hs : ∀ c ∈ s.head?, isBlank c = false) :
    leadingRun s = match (scan s).head? with
      | some (.word w) => w
      | _ => [] := by
  cases s with
  | nil => rfl
  | cons c s =>
    cases hmark : ofChar? c with
    | some mark =>
      have hc : isInner c = false := by simp [isInner, hmark]
      rw [leadingRun_cons_of_not hc, scan_cons_mark hmark]
      rcases ofChar?_eq_some hmark with ⟨-, rfl⟩ | ⟨-, rfl⟩ | ⟨-, rfl⟩ <;> rfl
    | none =>
      have hc : isInner c = true := by simp [isInner, hs c rfl, hmark]
      rw [leadingRun_cons_of_isInner hc, scan_cons_inner hc]
      rfl

theorem leadingRun_congr {s t : Text} (hs : ∀ c ∈ s.head?, isBlank c = false) (ht : ∀ c ∈ t.head?, isBlank c = false)
    (h : (scan s).head? = (scan t).head?) : leadingRun s = leadingRun t := by
  rw [leadingRun_eq hs, leadingRun_eq ht, h]

theorem leadingRun_of_scan {s w : Text} {tokens : List Token} (hs : ∀ c ∈ s.head?, isBlank c = false)
    (h : scan s = .word w :: tokens) : leadingRun s = w ∧ scan (afterRun s) = tokens := by
  have hrun : leadingRun s = w := by rw [leadingRun_eq hs, h, List.head?_cons]
  have hw : (word w).Proper := proper_of_mem_scan _ (h ▸ List.mem_cons_self)
  have happend := scan_eq_append s
  rw [h, hrun, ofRun, if_neg (by simpa using hw.1)] at happend
  exact ⟨hrun, (List.cons.inj happend).2.symm⟩

/-- Behind a character that is no blank, texts have the same tokens if they have them by themselves, and a word that the
character is in goes on with the same run. -/
theorem scan_cons_eq_iff {c : Char} (hc : isBlank c = false) {s t : Text} : scan (c :: s) = scan (c :: t) ↔
    scan s = scan t ∧ (isInner c = true → leadingRun s = leadingRun t) := by
  cases hmark : ofChar? c with
  | some mark =>
    have hinner : isInner c = false := by simp [isInner, hmark]
    rw [scan_cons_mark hmark, scan_cons_mark hmark, List.cons_inj_right, hinner]
    simp
  | none =>
    have hinner : isInner c = true := by simp [isInner, hc, hmark]
    rw [scan_cons_inner hinner, scan_cons_inner hinner, scan_eq_append s, scan_eq_append t]
    constructor
    · intro h
      obtain ⟨hword, hafter⟩ := List.cons.inj h
      obtain ⟨-, hrun⟩ := List.cons.inj (word.inj hword)
      exact ⟨by rw [hrun, hafter], fun _ => hrun⟩
    · rintro ⟨h, hrun⟩
      rw [hrun hinner] at h ⊢
      rw [List.append_cancel_left h]

end Runs

/-! ## Reading in step -/

section InStep

/-- The two texts can be read in step: blanks are passed on one side, any other character is read on both sides, and a
word goes on in the same way on both. -/
inductive InStep : Text → Text → Prop
  | nil : InStep [] []
  | left {c : Char} {s t : Text} : isBlank c = true → InStep s t → InStep (c :: s) t
  | right {c : Char} {s t : Text} : isBlank c = true → InStep s t → InStep s (c :: t)
  | both {c : Char} {s t : Text} : isBlank c = false → (isInner c = true → leadingRun s = leadingRun t) →
      InStep s t → InStep (c :: s) (c :: t)

variable {s t : Text}

theorem squeeze_eq_of_scan_eq (h : scan s = scan t) : squeeze s = squeeze t := by
  have hflat := congrArg (List.flatMap text) h
  rwa [scan, scan, flatMap_text_scanFrom, flatMap_text_scanFrom] at hflat

theorem inStep_of_scan_eq : ∀ {s t : Text}, scan s = scan t → InStep s t
  | [], [], _ => .nil
  | [], d :: t, h => by
    cases hd : isBlank d with
    | true => exact .right hd (inStep_of_scan_eq (h.trans (scan_cons_blank hd t)))
    | false => simpa [squeeze, hd] using squeeze_eq_of_scan_eq h
  | c :: s, [], h => by
    cases hc : isBlank c with
    | true => exact .left hc (inStep_of_scan_eq ((scan_cons_blank hc s).symm.trans h))
    | false => simpa [squeeze, hc] using squeeze_eq_of_scan_eq h
  | c :: s, d :: t, h => by
    cases hc : isBlank c with
    | true => exact .left hc (inStep_of_scan_eq ((scan_cons_blank hc s).symm.trans h))
    | false =>
      cases hd : isBlank d with
      | true => exact .right hd (inStep_of_scan_eq (h.trans (scan_cons_blank hd t)))
      | false =>
        have hsqueeze := squeeze_eq_of_scan_eq h
        simp only [squeeze, List.filter_cons, hc, hd, Bool.not_false, if_true] at hsqueeze
        obtain rfl := (List.cons.inj hsqueeze).1
        obtain ⟨hrest, hrun⟩ := (scan_cons_eq_iff hc).1 h
        exact .both hc hrun (inStep_of_scan_eq hrest)

theorem InStep.scan_eq (h : InStep s t) : scan s = scan t := by
  induction h with
  | nil => rfl
  | left hc _ ih => rw [scan_cons_blank hc, ih]
  | right hc _ ih => rw [scan_cons_blank hc, ih]
  | both hc hrun _ ih => exact (scan_cons_eq_iff hc).2 ⟨ih, hrun⟩

/-- **Texts with the same tokens** are those that are read in step. -/
theorem inStep_iff : InStep s t ↔ scan s = scan t := ⟨InStep.scan_eq, inStep_of_scan_eq⟩

theorem InStep.squeeze_eq (h : InStep s t) : squeeze s = squeeze t := squeeze_eq_of_scan_eq h.scan_eq

theorem InStep.trim (h : InStep s t) : InStep (Text.trim s) (Text.trim t) := by
  rw [inStep_iff, scan_trim, scan_trim, h.scan_eq]

/-- Behind their first blanks, such texts begin with the same character or are at their ends. -/
theorem InStep.trimStart_cases (h : InStep s t) : (trimStart s = [] ∧ trimStart t = []) ∨
    ∃ d s' t', trimStart s = d :: s' ∧ trimStart t = d :: t' ∧ (isInner d = true → leadingRun s' = leadingRun t') ∧
      InStep s' t' := by
  have hblank : ∀ {c : Char}, isBlank c = true → ∀ u : Text, trimStart (c :: u) = trimStart u :=
    fun hc u => List.dropWhile_cons_of_pos hc
  have hplain : ∀ {c : Char}, isBlank c = false → ∀ u : Text, trimStart (c :: u) = c :: u :=
    fun hc u => List.dropWhile_cons_of_neg (by simp [hc])
  induction h with
  | nil => exact .inl ⟨rfl, rfl⟩
  | left hc _ ih => rwa [hblank hc]
  | right hc _ ih => rwa [hblank hc]
  | both hc hrun h => exact .inr ⟨_, _, _, hplain hc _, hplain hc _, hrun, h⟩

end InStep
end Token
end DocLint
