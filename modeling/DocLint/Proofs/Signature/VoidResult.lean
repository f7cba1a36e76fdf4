import DocLint.Signature.VoidResult
import DocLint.Proofs.Parameter.Spelled
import DocLint.Proofs.Signature.Reread

/-!
# Two readings of the return type

The return type of a method is read backward from its name, and whether it is `void` is also read forward from the
beginning of the signature. The forward reading goes by characters, but it can be told from the tokens: it passes the
specifiers that come first, then `void`, and wants a name and a parenthesis behind it (`Signature.declaresVoid_iff`).
So it finds the `void` that the backward reading found exactly if it knows all that stands before
(`Signature.declaresVoid_text_iff`).
-/

namespace DocLint
namespace Signature

open Text (isBlank trim trimStart)
open Token (isInner join leadingRun afterRun scan)

variable {w s rest : Text} {tokens : List Token}

/-! ## Words at the beginning of a text -/

section Words

/-- What is passed of a text is its first run, with blanks behind it. -/
theorem afterWord?_eq_some_iff (hw : ∀ c ∈ w, isInner c = true) : afterWord? w s = some rest ↔
    leadingRun s = w ∧ ∃ c t, afterRun s = c :: t ∧ isBlank c = true ∧ rest = trimStart t := by
  constructor
  · intro h
    unfold afterWord? at h
    split at h
    · rename_i c t hprefix
      split at h
      · rename_i hc
        obtain rfl := List.isPrefixOf?_eq_some_iff_append_eq.1 hprefix
        have hinner : isInner c = false := by simp [isInner, hc]
        obtain ⟨hrun, hafter⟩ := Token.leadingRun_append hw (s := c :: t) (fun d hd => by cases hd; exact hinner)
        exact ⟨hrun, c, t, hafter, hc, (Option.some.inj h).symm⟩
      · cases h
    · cases h
  · rintro ⟨rfl, c, t, hafter, hc, rfl⟩
    have hprefix : (leadingRun s).isPrefixOf? s = some (c :: t) := by
      rw [List.isPrefixOf?_eq_some_iff_append_eq, ← hafter, Token.leadingRun_append_afterRun]
    simp [afterWord?, hprefix, hc]

theorem isInner_of_isNameChar {c : Char} (h : isNameChar c = true) : isInner c = true := by
  rw [isNameChar, Bool.or_eq_true, Bool.or_eq_true, beq_iff_eq, beq_iff_eq] at h
  rcases h with (rfl | rfl) | h
  · rfl
  · rfl
  · exact (Parameter.plain_of_isWordChar h).1

/-- A call is a first run of name characters, with an opening parenthesis behind it and perhaps blanks between. -/
theorem beginsWithCall_iff : beginsWithCall s = true ↔
    leadingRun s ≠ [] ∧ (∀ c ∈ leadingRun s, isNameChar c = true) ∧ (trimStart (afterRun s)).head? = some '(' := by
  have hname : ∀ c ∈ s.takeWhile isNameChar, isNameChar c = true := fun c hc => List.mem_takeWhile_imp hc
  rw [beginsWithCall, Bool.and_eq_true, Bool.not_eq_true', List.isEmpty_eq_false_iff, beq_iff_eq]
  constructor
  · rintro ⟨hne, hopen⟩
    have hhead : ∀ c ∈ (s.dropWhile isNameChar).head?, isInner c = false := by
      intro c hc
      cases hblank : isBlank c with
      | true => simp [isInner, hblank]
      | false =>
        obtain ⟨t, ht⟩ := List.head?_eq_some_iff.1 hc
        rw [ht, trimStart, List.dropWhile_cons_of_neg (by simp [hblank])] at hopen
        cases hopen
        rfl
    have hrun := Token.leadingRun_append (fun c hc => isInner_of_isNameChar (hname c hc)) hhead
    rw [List.takeWhile_append_dropWhile] at hrun
    rw [hrun.1, hrun.2]
    exact ⟨hne, hname, hopen⟩
  · rintro ⟨hne, hall, hopen⟩
    have hafter : (afterRun s).takeWhile isNameChar = [] ∧ (afterRun s).dropWhile isNameChar = afterRun s := by
      have hinner := Token.isInner_head?_afterRun s
      cases hrest : afterRun s with
      | nil => exact ⟨rfl, rfl⟩
      | cons c t =>
        rw [hrest] at hinner
        have hc : isNameChar c = false := Bool.eq_false_iff.2 fun hc => by
          simpa [isInner_of_isNameChar hc] using hinner c rfl
        exact ⟨List.takeWhile_cons_of_neg (by simp [hc]), List.dropWhile_cons_of_neg (by simp [hc])⟩
    rw [← Token.leadingRun_append_afterRun s, List.takeWhile_append_of_pos hall, List.dropWhile_append_of_pos hall,
      hafter.1, hafter.2, List.append_nil]
    exact ⟨hne, hopen⟩

end Words

/-! ## The first tokens of a text -/

section First

theorem scan_of_afterWord? (hw : (Token.word w).Proper) (h : afterWord? w s = some rest) :
    scan s = .word w :: scan rest := by
  obtain ⟨rfl, c, t, hafter, hc, rfl⟩ := (afterWord?_eq_some_iff hw.2).1 h
  rw [Token.scan_eq_append s, hafter, Token.scan_cons_blank hc, Token.scan_trimStart, Token.ofRun]
  simp [hw.1]

/-- The first word is passed when another one comes next. -/
theorem exists_afterWord? {u : Text} (hs : ∀ c ∈ s.head?, isBlank c = false)
    (h : scan s = .word w :: .word u :: tokens) : ∃ rest, afterWord? w s = some rest ∧
      scan rest = .word u :: tokens := by
  obtain ⟨rfl, hnext⟩ := Token.leadingRun_of_scan hs h
  have hrun : ∀ c ∈ leadingRun s, isInner c = true := fun c hc => List.mem_takeWhile_imp hc
  have hinner := Token.isInner_head?_afterRun s
  cases hafter : afterRun s with
  | nil =>
    rw [hafter] at hnext
    cases hnext
  | cons c t =>
    rw [hafter] at hnext hinner
    have hc : isBlank c = true := by
      cases hblank : isBlank c with
      | true => rfl
      | false =>
        -- Without a blank it is a mark that comes next.
        have hword := Token.leadingRun_of_scan (fun d hd => by cases hd; exact hblank) hnext
        rw [Token.leadingRun_cons_of_not (hinner c rfl)] at hword
        have hproper : (Token.word u).Proper := Token.proper_of_mem_scan _ (hnext ▸ List.mem_cons_self)
        exact absurd hword.1.symm hproper.1
    refine ⟨trimStart t, (afterWord?_eq_some_iff hrun).2 ⟨rfl, c, t, hafter, hc, rfl⟩, ?_⟩
    rw [Token.scan_trimStart, ← Token.scan_cons_blank hc, hnext]

/-- **A call by its tokens:** a word of name characters and an opening parenthesis. -/
theorem beginsWithCall_iff_scan (hs : ∀ c ∈ s.head?, isBlank c = false) : beginsWithCall s = true ↔
    ∃ name tokens, scan s = .word name :: .openParen :: tokens ∧ ∀ c ∈ name, isNameChar c = true := by
  rw [beginsWithCall_iff]
  constructor
  · rintro ⟨hne, hname, hopen⟩
    obtain ⟨t, ht⟩ := List.head?_eq_some_iff.1 hopen
    refine ⟨leadingRun s, scan t, ?_, hname⟩
    rw [Token.scan_eq_append s, ← Token.scan_trimStart (afterRun s), ht, Token.scan_cons_mark rfl, Token.ofRun]
    simp [hne]
  · rintro ⟨name, tokens, hscan, hname⟩
    have hproper : (Token.word name).Proper := Token.proper_of_mem_scan _ (hscan ▸ List.mem_cons_self)
    obtain ⟨rfl, hnext⟩ := Token.leadingRun_of_scan hs hscan
    refine ⟨hproper.1, hname, ?_⟩
    rw [← Token.scan_trimStart] at hnext
    exact Token.head?_eq_of_scan (Text.head?_trimStart _) (by rw [hnext]; rfl)

end First

/-! ## Specifiers -/

section Specifiers

/-- A text is passed by one word at most, with one rest. -/
theorem afterWord?_unique {w' rest' : Text} (hw : ∀ c ∈ w, isInner c = true) (hw' : ∀ c ∈ w', isInner c = true)
    (h : afterWord? w s = some rest) (h' : afterWord? w' s = some rest') : w = w' ∧ rest = rest' := by
  obtain ⟨rfl, c, t, hafter, -, rfl⟩ := (afterWord?_eq_some_iff hw).1 h
  obtain ⟨rfl, c', t', hafter', -, rfl⟩ := (afterWord?_eq_some_iff hw').1 h'
  rw [hafter] at hafter'
  cases hafter'
  exact ⟨rfl, rfl⟩

theorem head?_of_afterWord? (hw : ∀ c ∈ w, isInner c = true) (h : afterWord? w s = some rest) :
    ∀ c ∈ rest.head?, isBlank c = false := by
  obtain ⟨-, _, t, -, -, rfl⟩ := (afterWord?_eq_some_iff hw).1 h
  exact Text.head?_trimStart t

theorem length_lt_of_afterWord? (hw : ∀ c ∈ w, isInner c = true) (h : afterWord? w s = some rest) :
    rest.length < s.length := by
  obtain ⟨-, c, t, hafter, -, rfl⟩ := (afterWord?_eq_some_iff hw).1 h
  have hlength := congrArg List.length (Token.leadingRun_append_afterRun s)
  have htrim : (trimStart t).length ≤ t.length := (List.dropWhile_suffix _).length_le
  rw [hafter, List.length_append, List.length_cons] at hlength
  omega

theorem proper_of_mem_voidSpecifiers : ∀ w ∈ voidSpecifiers, (Token.word w).Proper := by
  have hall : ∀ w ∈ voidSpecifiers, (!w.isEmpty && w.all isInner) = true := by decide
  exact fun w hw => Token.proper_word (hall w hw)

theorem exists_word_of_mem_voidSpecifiers {t : Token} (h : t.text ∈ voidSpecifiers) :
    ∃ w ∈ voidSpecifiers, t = .word w := by
  cases t with
  | word w => exact ⟨w, h, rfl⟩
  | openParen | closeParen | comma => exact absurd h (by decide)

/-- One step of dropping: either no specifier is passed, or one is, and what is left is dropped from. -/
theorem dropSpecifiers_cases (fuel : Nat) (s : Text) :
    ((∀ w ∈ voidSpecifiers, afterWord? w s = none) ∧ dropSpecifiers (fuel + 1) s = s) ∨
      ∃ w ∈ voidSpecifiers, ∃ rest, afterWord? w s = some rest ∧ dropSpecifiers (fuel + 1) s = dropSpecifiers fuel rest := by
  cases hfind : voidSpecifiers.findSome? fun word => afterWord? word s with
  | none => exact .inl ⟨List.findSome?_eq_none_iff.1 hfind, by simp only [dropSpecifiers, hfind]⟩
  | some rest =>
    obtain ⟨w, hw, hafter⟩ := List.exists_of_findSome?_eq_some hfind
    exact .inr ⟨w, hw, rest, hafter, by simp only [dropSpecifiers, hfind]⟩

theorem dropSpecifiers_of_afterWord? (hw : w ∈ voidSpecifiers) (h : afterWord? w s = some rest) (fuel : Nat) :
    dropSpecifiers (fuel + 1) s = dropSpecifiers fuel rest := by
  rcases dropSpecifiers_cases fuel s with ⟨hnone, -⟩ | ⟨w', hw', rest', hafter, hdrop⟩
  · rw [hnone w hw] at h
    cases h
  · rw [hdrop, (afterWord?_unique (proper_of_mem_voidSpecifiers w hw).2 (proper_of_mem_voidSpecifiers w' hw').2 h hafter).2]

/-- What is dropped are specifiers. -/
theorem scan_dropSpecifiers : ∀ (fuel : Nat) (s : Text), ∃ passed, (∀ t ∈ passed, t.text ∈ voidSpecifiers) ∧
    scan s = passed ++ scan (dropSpecifiers fuel s)
  | 0, s => ⟨[], List.forall_mem_nil _, rfl⟩
  | fuel + 1, s => by
    rcases dropSpecifiers_cases fuel s with ⟨-, hdrop⟩ | ⟨w, hw, rest, hafter, hdrop⟩
    · exact ⟨[], List.forall_mem_nil _, by rw [hdrop, List.nil_append]⟩
    · obtain ⟨passed, hpassed, hscan⟩ := scan_dropSpecifiers fuel rest
      refine ⟨.word w :: passed, List.forall_mem_cons.2 ⟨hw, hpassed⟩, ?_⟩
      rw [scan_of_afterWord? (proper_of_mem_voidSpecifiers w hw) hafter, hscan, hdrop, List.cons_append]

theorem head?_dropSpecifiers : ∀ (fuel : Nat) {s : Text}, (∀ c ∈ s.head?, isBlank c = false) →
    ∀ c ∈ (dropSpecifiers fuel s).head?, isBlank c = false
  | 0, _, hs => hs
  | fuel + 1, s, hs => by
    rcases dropSpecifiers_cases fuel s with ⟨-, hdrop⟩ | ⟨w, hw, rest, hafter, hdrop⟩
    · rwa [hdrop]
    · rw [hdrop]
      exact head?_dropSpecifiers fuel (head?_of_afterWord? (proper_of_mem_voidSpecifiers w hw).2 hafter)

/-- All specifiers are dropped that stand before `void`, if a word comes behind it. -/
theorem scan_dropSpecifiers_of_scan : ∀ {passed : List Token} {fuel : Nat} {s : Text}, s.length ≤ fuel →
    (∀ c ∈ s.head?, isBlank c = false) → (∀ t ∈ passed, t.text ∈ voidSpecifiers) →
    scan s = passed ++ .word "void".toList :: .word w :: tokens →
    scan (dropSpecifiers fuel s) = .word "void".toList :: .word w :: tokens
  | _, 0, s, hfuel, _, _, hscan => by
    obtain rfl := List.length_eq_zero_iff.1 (Nat.le_zero.1 hfuel)
    cases (List.append_eq_nil_iff.1 hscan.symm).2
  | [], fuel + 1, s, _, hs, _, hscan => by
    rcases dropSpecifiers_cases fuel s with ⟨-, hdrop⟩ | ⟨v, hv, rest, hafter, -⟩
    · rw [hdrop, hscan, List.nil_append]
    · have hrun := ((afterWord?_eq_some_iff (proper_of_mem_voidSpecifiers v hv).2).1 hafter).1
      rw [(Token.leadingRun_of_scan hs hscan).1] at hrun
      exact absurd (hrun ▸ hv) (by decide)
  | t :: passed, fuel + 1, s, hfuel, hs, hpassed, hscan => by
    obtain ⟨ht, hrestPassed⟩ := List.forall_mem_cons.1 hpassed
    obtain ⟨v, hv, rfl⟩ := exists_word_of_mem_voidSpecifiers ht
    -- Another word comes next, be it a specifier or `void`.
    obtain ⟨u, more, hmore⟩ : ∃ u more, passed ++ .word "void".toList :: .word w :: tokens = .word u :: more := by
      cases passed with
      | nil => exact ⟨_, _, rfl⟩
      | cons t passed =>
        obtain ⟨u, -, rfl⟩ := exists_word_of_mem_voidSpecifiers (hrestPassed t List.mem_cons_self)
        exact ⟨_, _, rfl⟩
    rw [List.cons_append, hmore] at hscan
    obtain ⟨rest, hafter, hrest⟩ := exists_afterWord? hs hscan
    have hinner := (proper_of_mem_voidSpecifiers v hv).2
    have hlength := length_lt_of_afterWord? hinner hafter
    rw [dropSpecifiers_of_afterWord? hv hafter]
    exact scan_dropSpecifiers_of_scan (Nat.le_of_lt_succ (hlength.trans_le hfuel)) (head?_of_afterWord? hinner hafter)
      hrestPassed (hrest.trans hmore.symm)

/-- **A method without a value, by its tokens:** specifiers, the word `void`, a word of name characters, and an opening
parenthesis. -/
theorem declaresVoid_iff : declaresVoid s = true ↔ ∃ passed name tokens, (∀ t ∈ passed, t.text ∈ voidSpecifiers) ∧
    scan s = passed ++ .word "void".toList :: .word name :: .openParen :: tokens ∧
    ∀ c ∈ name, isNameChar c = true := by
  have hs := (Text.trim_eq_self_iff.1 (Text.trim_trim s)).1
  have hvoid : (Token.word "void".toList).Proper := Token.proper_word (by decide)
  rw [declaresVoid, ← Token.scan_trim s]
  constructor
  · intro h
    obtain ⟨passed, hpassed, hscan⟩ := scan_dropSpecifiers (trim s).length (trim s)
    cases hafter : afterWord? "void".toList (dropSpecifiers (trim s).length (trim s)) with
    | none =>
      simp only [hafter] at h
      cases h
    | some rest =>
      simp only [hafter] at h
      obtain ⟨name, tokens, hcall, hname⟩ := (beginsWithCall_iff_scan (head?_of_afterWord? hvoid.2 hafter)).1 h
      exact ⟨passed, name, tokens, hpassed, by rw [hscan, scan_of_afterWord? hvoid hafter, hcall], hname⟩
  · rintro ⟨passed, name, tokens, hpassed, hscan, hname⟩
    have hdrop := scan_dropSpecifiers_of_scan le_rfl hs hpassed hscan
    obtain ⟨rest, hafter, hrest⟩ := exists_afterWord? (head?_dropSpecifiers _ hs) hdrop
    simp only [hafter]
    exact (beginsWithCall_iff_scan (head?_of_afterWord? hvoid.2 hafter)).2 ⟨name, tokens, hrest, hname⟩

end Specifiers

/-! ## The type before the name -/

section Types

variable {lead front : List Token} {name : Text}

/-- A word behind a specifier is the type before the name, when it is none itself. -/
theorem returnTypeOf_append (hne : w ≠ []) (hw : w ∉ specifiers) (hfront : ∀ t ∈ front, t.text ∈ specifiers) (name : Text) :
    returnTypeOf (front ++ [.word w]) name = w ++ NameToken.markers name := by
  have htake : ((front ++ [Token.word w]).reverse.takeWhile fun t => !isSpecifier t) = [.word w] := by
    have hnone : (front.reverse.takeWhile fun t => !isSpecifier t) = [] := by
      refine List.takeWhile_eq_nil_iff.2 fun hlength hspecifier => ?_
      exact not_isSpecifier_iff.1 hspecifier (hfront _ (List.mem_reverse.1 (List.getElem_mem hlength)))
    rw [List.reverse_append, List.reverse_singleton, List.singleton_append, List.takeWhile_cons,
      if_pos ((not_isSpecifier_iff (t := .word w)).2 hw), hnone]
  rw [returnTypeOf, htake]
  simp [join, Token.text, hne]

/-- A method that returns a plain word has this word before its name, and no markers in it. -/
theorem exists_append_of_returnTypeOf (hlead : ∀ t ∈ lead, t.Proper) (hw : (Token.word w).Proper)
    (hmarker : w.any NameToken.isMarker = false) (h : returnTypeOf lead name = w) :
    ∃ front, lead = front ++ [.word w] := by
  have htype := isTypeOf_rtakeWhile lead
  rw [returnTypeOf_eq htype hlead] at h
  obtain ⟨front, hfront⟩ := htype.ending
  split at h
  · exact absurd h.symm hw.1
  · have hmarkers : NameToken.markers name = [] := List.eq_nil_iff_forall_not_mem.2 fun c hc => by
      have hyes : NameToken.isMarker c = true := List.mem_takeWhile_imp hc
      exact List.any_eq_false.1 hmarker c (h ▸ List.mem_append_right _ hc) hyes
    rw [hmarkers, List.append_nil] at h
    have hscan := Token.scan_join fun t ht => hlead t (htype.ending.subset ht)
    rw [h, Token.scan_word hw.1 hw.2] at hscan
    exact ⟨front, by rw [hscan, hfront]⟩

/-- A name of name characters has no markers. -/
theorem markers_eq_nil (h : ∀ c ∈ name, isNameChar c = true) : NameToken.markers name = [] := by
  refine List.eq_nil_iff_forall_not_mem.2 fun c hc => ?_
  have hmarker : NameToken.isMarker c = true := List.mem_takeWhile_imp hc
  have hchar := h c ((List.takeWhile_prefix _).subset hc)
  rw [NameToken.isMarker, Bool.or_eq_true, beq_iff_eq, beq_iff_eq] at hmarker
  rcases hmarker with rfl | rfl
  · exact absurd hchar (by decide)
  · exact absurd hchar (by decide)

theorem voidSpecifiers_subset : voidSpecifiers ⊆ specifiers := by decide

/-- The name of a declaration is the word before the first parenthesis. -/
theorem Decomposes.eq_of_tokens_eq {list after rest : List Token} {u : Text} (h : Decomposes tokens lead name list after)
    (hfront : Token.openParen ∉ front) (heq : tokens = front ++ [.word u] ++ .openParen :: rest) :
    lead = front ∧ name = u := by
  have hfront' : Token.openParen ∉ front ++ [.word u] := by simpa using hfront
  have hfirst : tokens.head? ≠ some .openParen := fun hopen => by
    rw [heq, List.head?_append_of_ne_nil _ (by simp)] at hopen
    exact hfront' (List.mem_of_head? hopen)
  have htokens := h.tokens_eq
  rw [List.append_assoc, List.append_assoc, append_head, heq] at htokens
  have hcut := cutAtOpen_eq_some_iff.2 ⟨htokens, h.openParen_not_mem hfirst⟩
  rw [cutAtOpen_eq_some_iff.2 ⟨rfl, hfront'⟩, Option.some.injEq, Prod.mk.injEq] at hcut
  obtain ⟨rfl, hname⟩ := List.append_inj' hcut.1 rfl
  cases hname
  exact ⟨rfl, rfl⟩

end Types

/-! ## Both readings -/

section Readings

variable {line : Text} {signature : Signature}

/-- **Both readings find the same `void`,** as far as the forward one knows what stands before it. The text of a method
has the tokens `lead name ( list ) after`, in one way only. When the method returns `void`, this is the last token of
`lead`. The forward reading finds it exactly if all tokens before it are specifiers that it passes, and if the name has
only characters that it takes for those of names. Without a `void` in the backward reading it finds none. -/
theorem declaresVoid_text_iff (h : ofLine? line = some signature) (hform : signature.form = .method) :
    ∃ lead list after, Decomposes (scan signature.text) lead signature.name list after ∧
      (signature.returnType = "void".toList → lead.getLast? = some (.word "void".toList)) ∧
      (declaresVoid signature.text = true ↔ signature.returnType = "void".toList ∧
        (∀ t ∈ lead.dropLast, t.text ∈ voidSpecifiers) ∧
        ∀ c ∈ signature.name, c = '~' ∨ c = ':' ∨ Text.isWordChar c = true) := by
  obtain ⟨-, lead, list, after, hparts, hmade⟩ := isMadeOf_of_ofLine? h
  have htext := hmade.decomposes hparts
  have hname : (∀ c ∈ signature.name, c = '~' ∨ c = ':' ∨ Text.isWordChar c = true) ↔
      ∀ c ∈ signature.name, isNameChar c = true := by
    simp only [isNameChar, Bool.or_eq_true, beq_iff_eq, or_assoc]
  have hproper : ∀ t ∈ lead, t.Proper := fun t ht => hmade.proper t (by simp [ht])
  have hreturn : signature.returnType = returnTypeOf lead signature.name := by rw [hmade.returnType_eq, if_pos hform]
  have hvoid : signature.returnType = "void".toList → ∃ front, lead = front ++ [.word "void".toList] := fun heq =>
    exists_append_of_returnTypeOf hproper (Token.proper_word (by decide)) (by decide) (hreturn.symm.trans heq)
  refine ⟨lead, list, _, htext, fun heq => ?_, ?_⟩
  · obtain ⟨front, rfl⟩ := hvoid heq
    exact List.getLast?_concat
  · rw [hname, declaresVoid_iff]
    constructor
    · rintro ⟨passed, name, tokens, hpassed, hforward, hchars⟩
      have hopen : Token.openParen ∉ passed ++ [.word "void".toList] := by
        refine fun hmem => (List.mem_append.1 hmem).elim (fun hmem => ?_) (by simp)
        exact absurd (hpassed _ hmem) (by decide)
      have hcut : scan signature.text = passed ++ [.word "void".toList] ++ [.word name] ++ .openParen :: tokens := by
        rw [hforward, List.append_assoc, List.append_assoc]
        rfl
      obtain ⟨rfl, rfl⟩ := htext.eq_of_tokens_eq hopen hcut
      rw [List.dropLast_concat, hreturn, returnTypeOf_append (by decide) (by decide)
        (fun t ht => voidSpecifiers_subset (hpassed t ht)), markers_eq_nil hchars]
      exact ⟨rfl, hpassed, hchars⟩
    · rintro ⟨heq, hpassed, hchars⟩
      obtain ⟨front, rfl⟩ := hvoid heq
      rw [List.dropLast_concat] at hpassed
      have htokens := htext.tokens_eq
      simp only [List.append_assoc, List.cons_append, List.nil_append] at htokens
      exact ⟨front, signature.name, _, hpassed, htokens, hchars⟩

/-- A specifier before `void` and a scope before the name are passed. -/
theorem declaresVoid_text_scoped : ∃ signature,
    ofLine? "virtual void Vital::update(int dt) override;".toList = some signature ∧ signature.form = .method ∧
    ∃ lead list after, Decomposes (scan signature.text) lead signature.name list after ∧
      (signature.returnType = "void".toList → lead.getLast? = some (.word "void".toList)) ∧
      (declaresVoid signature.text = true ↔ signature.returnType = "void".toList ∧
        (∀ t ∈ lead.dropLast, t.text ∈ voidSpecifiers) ∧
        ∀ c ∈ signature.name, c = '~' ∨ c = ':' ∨ Text.isWordChar c = true) := by
  have h : ofLine? "virtual void Vital::update(int dt) override;".toList =
      some ⟨"void".toList, "Vital::update".toList, .method, "virtual void Vital::update(int dt) override;".toList⟩ := by
    decide +kernel
  exact ⟨_, h, rfl, declaresVoid_text_iff h rfl⟩

end Readings

end Signature
end DocLint
