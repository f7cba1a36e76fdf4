import DocLint.Signature
import DocLint.Proofs.Signature.Token

/-!
# Parameter lists that are left open

A line that ends inside of its parameter list is no declaration but begins one (`Signature.ofLine?_open`,
`Signature.beginsDeclaration_open`): the parenthesis that closes the list is not among its tokens, because no prefix of
what follows the opening one has more closing parentheses than opening ones (`Signature.cutAtClose_eq_none`). What a
line declares depends on its tokens, apart from its first and last characters (`Signature.ofLine?_congr`).
-/

namespace DocLint

open Text (isBlank trim trimStart trimEnd)

/-! ## Scanning trimmed texts -/

namespace Token

theorem scan_append_blank {c : Char} (hc : isBlank c = true) (s t : Text) : scan (s ++ c :: t) = scan s ++ scan t :=
  scanFrom_blank hc t [] s

theorem scan_of_blank : ∀ {blanks : Text}, (∀ c ∈ blanks, isBlank c = true) → scan blanks = []
  | [], _ => rfl
  | c :: blanks, h => by
    obtain ⟨hc, hrest⟩ := List.forall_mem_cons.1 h
    rw [scan_cons_blank hc, scan_of_blank hrest]

theorem scan_trimStart (s : Text) : scan (trimStart s) = scan s := by
  induction s with
  | nil => rfl
  | cons c s ih =>
    by_cases hc : isBlank c = true
    · rw [scan_cons_blank hc, ← ih, trimStart, List.dropWhile_cons_of_pos hc, trimStart]
    · rw [trimStart, List.dropWhile_cons_of_neg hc]

theorem scan_trimEnd (s : Text) : scan (trimEnd s) = scan s := by
  obtain ⟨blanks, hblanks, heq⟩ := Text.exists_trimEnd_append s
  cases blanks with
  | nil => rw [List.append_nil] at heq; rw [← heq]
  | cons c blanks =>
    obtain ⟨hc, hrest⟩ := List.forall_mem_cons.1 hblanks
    conv => rhs; rw [heq, scan_append_blank hc, scan_of_blank hrest, List.append_nil]

/-- Trimming loses no token. -/
theorem scan_trim (s : Text) : scan (trim s) = scan s := by rw [trim, scan_trimEnd, scan_trimStart]

/-- The opening parenthesis separates tokens. -/
theorem scan_openParen (s t : Text) : scan (s ++ '(' :: t) = scan s ++ openParen :: scan t := scanFrom_mark rfl t [] s

theorem mem_of_openParen_mem_scan {s : Text} (h : openParen ∈ scan s) : '(' ∈ s := by
  have hmem : '(' ∈ (scan s).flatMap text := List.mem_flatMap.2 ⟨openParen, h, List.mem_singleton_self _⟩
  rw [scan, flatMap_text_scanFrom, List.nil_append] at hmem
  exact (List.mem_filter.1 hmem).1

end Token

namespace Signature

/-! ## The surplus of opening parentheses -/

section Surplus

theorem parenSurplus_append (s t : Text) : parenSurplus (s ++ t) = parenSurplus s + parenSurplus t := by
  rw [parenSurplus, parenSurplus, parenSurplus, List.count_append, List.count_append]
  omega

theorem parenSurplus_cons (c : Char) (s : Text) : parenSurplus (c :: s) = parenSurplus [c] + parenSurplus s :=
  parenSurplus_append [c] s

theorem parenSurplus_trim (s : Text) : parenSurplus (trim s) = parenSurplus s := by
  rw [parenSurplus, parenSurplus, Text.count_trim rfl, Text.count_trim rfl]

theorem parenSurplus_of_not_mem {s : Text} (hopen : '(' ∉ s) (hclose : ')' ∉ s) : parenSurplus s = 0 := by
  rw [parenSurplus, List.count_eq_zero.2 hopen, List.count_eq_zero.2 hclose]
  rfl

end Surplus

/-! ## The end of a list -/

section Close

theorem cutAtClose_ofRun {depth : Nat} {tokens : List Token} (h : cutAtClose depth tokens = none) (run : Text) :
    cutAtClose depth (Token.ofRun run ++ tokens) = none := by
  unfold Token.ofRun
  split
  · exact h
  · rw [List.singleton_append]
    cases depth <;> simp [cutAtClose, h]

/-- A list is not closed by a text that never has more closing parentheses than opening ones and the list together. -/
theorem cutAtClose_eq_none : ∀ {s : Text} {depth : Nat}, (∀ t, t <+: s → 0 ≤ depth + parenSurplus t) → ∀ run,
    cutAtClose depth (Token.scanFrom run s) = none := by
  intro s
  induction s with
  | nil =>
    intro depth _ run
    have hnil : cutAtClose depth [] = none := by cases depth <;> rfl
    simpa [Token.scanFrom] using cutAtClose_ofRun hnil run
  | cons c s ih =>
    intro depth h run
    have hnext : ∀ next : Nat, (depth : Int) + parenSurplus [c] = next → ∀ run,
        cutAtClose next (Token.scanFrom run s) = none := by
      intro next hdepth
      refine ih fun t ht => ?_
      have hcons := h (c :: t) ((List.prefix_cons_inj c).2 ht)
      rw [parenSurplus_cons] at hcons
      omega
    have hplain : c ≠ '(' → c ≠ ')' → ∀ run, cutAtClose depth (Token.scanFrom run s) = none := by
      intro hopen hclose
      have hsurplus : parenSurplus [c] = 0 := parenSurplus_of_not_mem (by simp [hopen.symm]) (by simp [hclose.symm])
      exact hnext depth (by rw [hsurplus, Int.add_zero])
    rw [Token.scanFrom]
    split
    · rename_i hblank
      refine cutAtClose_ofRun (hplain ?_ ?_ []) run
      · rintro rfl
        cases hblank
      · rintro rfl
        cases hblank
    · split
      · rename_i mark hmark
        refine cutAtClose_ofRun ?_ run
        rcases Token.ofChar?_eq_some hmark with ⟨rfl, rfl⟩ | ⟨rfl, rfl⟩ | ⟨rfl, rfl⟩
        · have hinner := hnext (depth + 1) rfl []
          cases depth <;> simp [cutAtClose, hinner]
        · -- A parenthesis that closes the list would be one too many.
          have hone := h [')'] ((List.prefix_cons_inj _).2 List.nil_prefix)
          have hsurplus : parenSurplus [')'] = -1 := rfl
          cases depth with
          | zero => omega
          | succ depth =>
            have houter := hnext depth (by omega) []
            simp [cutAtClose, houter]
        · have hrest := hplain (by decide) (by decide) []
          cases depth <;> simp [cutAtClose, hrest]
      · rename_i hmark
        refine hplain ?_ ?_ _
        · rintro rfl
          cases hmark
        · rintro rfl
          cases hmark

end Close

/-! ## The head of a declaration -/

section Head

theorem cutAtOpen_append (rest : List Token) : ∀ {inside : List Token}, Token.openParen ∉ inside →
    cutAtOpen (inside ++ .openParen :: rest) = some (inside, rest)
  | [], _ => rfl
  | t :: inside, h => by
    obtain ⟨ht, hinside⟩ := not_or.1 (mt List.mem_cons.2 h)
    have ih := cutAtOpen_append rest hinside
    cases t with
    | openParen => exact absurd rfl ht
    | closeParen | comma | word => simp [cutAtOpen, ih]

/-- A name before the first parenthesis makes a declaration, whatever follows. -/
theorem ofTokens?_append {lead : List Token} (h : Token.openParen ∉ lead) (name : Text) (rest : List Token) :
    DeclarationHead.ofTokens? (lead ++ .word name :: .openParen :: rest) =
      if NameToken.isCallable name && !lead.any isExpressive then some ⟨lead, name, rest⟩ else none := by
  have hword : Token.openParen ∉ lead.tail ++ [.word name] := by
    simp only [List.mem_append, List.mem_singleton, reduceCtorEq, or_false]
    exact fun hmem => h (List.mem_of_mem_tail hmem)
  cases lead with
  | nil => rfl
  | cons first lead =>
    have hcut := cutAtOpen_append rest hword
    rw [List.tail_cons, List.append_assoc, List.singleton_append] at hcut
    have hlast : (first :: (lead ++ [.word name])).getLast? = some (.word name) := by
      rw [← List.cons_append, List.getLast?_concat]
    have hlead : (first :: (lead ++ [.word name])).dropLast = first :: lead := by
      rw [← List.cons_append, List.dropLast_concat]
    simp only [List.cons_append, DeclarationHead.ofTokens?, hcut, hlast, hlead]

end Head

/-! ## Lines -/

section Lines

variable {front s t : Text} {signature : Signature}

/-- What a line declares depends on its tokens, on whether it is a remark, and on the mark that it ends with. -/
theorem ofLine?_congr (hempty : (trim s).isEmpty = (trim t).isEmpty)
    (hremark : isRemark (trim s) = isRemark (trim t)) (hscan : Token.scan s = Token.scan t)
    (hend : endMark (trim s) = endMark (trim t)) : ofLine? s = ofLine? t := by
  simp only [ofLine?, Token.scan_trim, hempty, hremark, hscan, hend]

theorem ofLine?_trim (s : Text) : ofLine? (trim s) = ofLine? s := by rw [ofLine?, ofLine?, Text.trim_trim]

theorem beginsDeclaration_trim (s : Text) : beginsDeclaration (trim s) = beginsDeclaration s := by
  rw [beginsDeclaration, beginsDeclaration, Text.trim_trim]

theorem of_ofLine?_eq_some (h : ofLine? s = some signature) :
    isRemark (trim s) = false ∧ (DeclarationHead.ofTokens? (Token.scan s)).isSome = true := by
  simp only [ofLine?, Token.scan_trim] at h
  split at h
  · cases h
  · rename_i hno
    rw [Bool.not_eq_true, Bool.or_eq_false_iff] at hno
    refine ⟨hno.2, ?_⟩
    split at h
    · cases h
    · rename_i head hhead
      rw [hhead]
      rfl

/-- The first two characters tell a remark. -/
theorem isRemark_append_openParen (hne : s ≠ []) (t t' : Text) :
    isRemark (s ++ '(' :: t) = isRemark (s ++ '(' :: t') := by
  match s with
  | [] => exact absurd rfl hne
  | [c] => simp [isRemark, List.isPrefixOf]
  | c :: d :: s => simp [isRemark, List.isPrefixOf]

theorem isEmpty_trim_openParen (front rest : Text) : (trim (front ++ '(' :: rest)).isEmpty = false := by
  rw [Text.trim_append rfl]
  exact List.isEmpty_eq_false_iff.2 (by simp)

theorem isRemark_trim_congr (hne : trimStart front ≠ []) (t t' : Text) :
    isRemark (trim (front ++ '(' :: t)) = isRemark (trim (front ++ '(' :: t')) := by
  rw [Text.trim_append rfl, Text.trim_append rfl]
  exact isRemark_append_openParen hne _ _

/-- **Two lines that differ inside of a list alone,** and there only in blanks, declare the same. -/
theorem ofLine?_list_congr (hne : trimStart front ≠ []) {back : Text}
    (hscan : Token.scan (front ++ '(' :: (s ++ ')' :: back)) = Token.scan (front ++ '(' :: (t ++ ')' :: back))) :
    ofLine? (front ++ '(' :: (s ++ ')' :: back)) = ofLine? (front ++ '(' :: (t ++ ')' :: back)) := by
  have hend : ∀ list : Text,
      endMark (trim (front ++ '(' :: (list ++ ')' :: back))) = endMark (')' :: trimEnd back) := by
    intro list
    have happend : trim (front ++ '(' :: (list ++ ')' :: back)) =
        (trimStart front ++ '(' :: list) ++ ')' :: trimEnd back := by
      rw [Text.trim_append rfl, Text.trimEnd_append rfl, List.append_assoc, List.cons_append]
    rw [endMark, endMark, happend, List.getLast?_append_of_ne_nil _ (List.cons_ne_nil _ _)]
  refine ofLine?_congr ?_ (isRemark_trim_congr hne _ _) hscan (by rw [hend, hend])
  rw [isEmpty_trim_openParen, isEmpty_trim_openParen]

end Lines

/-! ## Lines with a name before their first parenthesis -/

section Open

variable {front rest : Text} {lead : List Token} {name : Text} (hscan : Token.scan front = lead ++ [.word name])
include hscan

theorem trimStart_ne_nil_of_scan : trimStart front ≠ [] := by
  intro hnil
  rw [← Token.scan_trimStart, hnil] at hscan
  cases lead <;> cases hscan

variable (hopen : '(' ∉ front)
include hopen

/-- The head of such a line is made up of the tokens before the parenthesis. -/
theorem ofTokens?_scan (rest : Text) : DeclarationHead.ofTokens? (Token.scan (front ++ '(' :: rest)) =
    if NameToken.isCallable name && !lead.any isExpressive then some ⟨lead, name, Token.scan rest⟩ else none := by
  have hlead : Token.openParen ∉ lead := fun hmem =>
    hopen (Token.mem_of_openParen_mem_scan (hscan ▸ List.mem_append_left _ hmem))
  rw [Token.scan_openParen, hscan, List.append_assoc, List.singleton_append, ofTokens?_append hlead]

/-- **A line that ends inside of its list** declares nothing. -/
theorem ofLine?_open (hrest : ∀ t, t <+: rest → 0 ≤ parenSurplus t) : ofLine? (front ++ '(' :: rest) = none := by
  have hclose : cutAtClose 0 (Token.scan rest) = none := by
    refine cutAtClose_eq_none (fun t ht => ?_) []
    rw [Int.natCast_zero, Int.zero_add]
    exact hrest t ht
  simp only [ofLine?, Token.scan_trim, ofTokens?_scan hscan hopen]
  split
  · rfl
  · cases NameToken.isCallable name && !lead.any isExpressive with
    | false => rfl
    | true => simp [hclose]

/-- It begins a declaration if it declares something with another rest. -/
theorem beginsDeclaration_open {whole : Text} {signature : Signature}
    (h : ofLine? (front ++ '(' :: whole) = some signature) (hsurplus : 0 < parenSurplus (front ++ '(' :: rest)) :
    beginsDeclaration (front ++ '(' :: rest) = true := by
  obtain ⟨hremark, hhead⟩ := of_ofLine?_eq_some h
  rw [ofTokens?_scan hscan hopen] at hhead
  have hcallable : (NameToken.isCallable name && !lead.any isExpressive) = true := by
    by_contra hno
    rw [if_neg hno] at hhead
    cases hhead
  rw [beginsDeclaration, isEmpty_trim_openParen, isRemark_trim_congr (trimStart_ne_nil_of_scan hscan) rest whole,
    hremark, Token.scan_trim, ofTokens?_scan hscan hopen, if_pos hcallable, parenSurplus_trim]
  simpa using hsurplus

end Open
end Signature
end DocLint
