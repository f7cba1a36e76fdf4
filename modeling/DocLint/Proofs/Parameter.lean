import DocLint.Parameter
import DocLint.Proofs.Text.Class

/-!
# Reading a parameter

A parameter is named by an identifier (`Parameter.isName_of_mem_ofSignature`). A type that ends as types do is told apart
from the name and the array brackets behind it (`Parameter.ofText?_declared`): nothing but array brackets may follow a
name, and a type that closes its own brackets leaves none open for a name behind it (`Parameter.nameAfter?_eq_none`).
-/

namespace DocLint
namespace Parameter

open Text (isBlank isWordChar trim trimStart)

/-! ## Names -/

section Names

theorem isWordChar_of_startsName {c : Char} (h : startsName c = true) : isWordChar c = true := by
  rw [startsName, Bool.or_eq_true] at h
  rcases h with hletter | hunderscore
  · have hcode : c.toNat < 128 := by
      rcases Text.isTagStart_iff.1 (Bool.or_eq_true_iff.2 (.inr hletter)) with rfl | hcode | hcode
      · decide
      · omega
      · omega
    simp [isWordChar, hcode, Char.isAlphanum, hletter]
  · rw [beq_iff_eq.1 hunderscore]
    decide

/-- An identifier as parameters are named: a letter of `A` to `Z` in either case or an underscore, and word characters. -/
def isName : Text → Bool
  | [] => false
  | c :: rest => startsName c && rest.all isWordChar

theorem isName_of_nameAfter? {last : Char} {rest blanks name dimensions : Text}
    (h : nameAfter? last rest = some (blanks, name, dimensions)) : isName name = true := by
  unfold nameAfter? at h
  split at h
  · cases h
  · rename_i c s hs
    simp only at h
    split at h
    · rename_i hends
      cases h
      rw [Bool.and_eq_true, Bool.and_eq_true] at hends
      rw [isName, hends.1.2, Bool.true_and, List.all_eq_true]
      exact fun d hd => List.mem_takeWhile_imp hd
    · cases h

theorem isName_of_cutAtName? : ∀ {s type name dimensions : Text},
    cutAtName? s = some (type, name, dimensions) → isName name = true
  | [], _, _, _, h => by cases h
  | c :: rest, _, _, _, h => by
    simp only [cutAtName?] at h
    split at h
    · rename_i hname
      cases h
      exact isName_of_nameAfter? hname
    · split at h
      · cases h
      · obtain ⟨⟨type, name, dimensions⟩, hcut, heq⟩ := Option.map_eq_some_iff.1 h
        cases heq
        exact isName_of_cutAtName? hcut

/-- The parameters of a signature have names. -/
theorem isName_of_mem_ofSignature {signature : Text} {p : Parameter} (h : p ∈ ofSignature signature) :
    isName p.name = true := by
  unfold ofSignature at h
  split at h
  · obtain ⟨part, -, hpart⟩ := List.mem_filterMap.1 h
    obtain ⟨⟨type, name, dimensions⟩, hcut, rfl⟩ := Option.map_eq_some_iff.1 hpart
    exact isName_of_cutAtName? hcut
  · cases h

theorem all_isWordChar_of_isName {name : Text} (h : isName name = true) : ∀ c ∈ name, isWordChar c = true := by
  cases name with
  | nil => cases h
  | cons c rest =>
    rw [isName, Bool.and_eq_true, List.all_eq_true] at h
    exact List.forall_mem_cons.2 ⟨isWordChar_of_startsName h.1, h.2⟩

theorem not_mem_of_isName {name : Text} (h : isName name = true) {c : Char} (hc : isWordChar c = false) : c ∉ name :=
  fun hm => by
    rw [all_isWordChar_of_isName h c hm] at hc
    cases hc

theorem ne_nil_of_isName {name : Text} (h : isName name = true) : name ≠ [] := by
  rintro rfl
  cases h

/-- A name begins with no blank. -/
theorem head?_of_isName {name : Text} (h : isName name = true) (s : Text) :
    ∀ c ∈ (name ++ s).head?, isBlank c = false := by
  intro c hc
  rw [List.head?_append_of_ne_nil _ (ne_nil_of_isName h)] at hc
  exact Text.isBlank_of_isWordChar (all_isWordChar_of_isName h c (List.mem_of_mem_head? hc))

end Names

/-! ## A type and a name -/

section Declared

/-- The character can end a type that a name follows. -/
def endsType (c : Char) : Bool := isWordChar c || c == '>' || c == ']' || c == '*' || c == '&'

theorem isBlank_of_endsType {c : Char} (h : endsType c = true) : isBlank c = false := by
  simp only [endsType, Bool.or_eq_true, beq_iff_eq] at h
  rcases h with (((h | rfl) | rfl) | rfl) | rfl
  · exact Text.isBlank_of_isWordChar h
  all_goals rfl

theorem isDimensions_trimStart (s : Text) : isDimensions false (trimStart s) = isDimensions false s := by
  induction s with
  | nil => rfl
  | cons c s ih =>
    cases hc : isBlank c with
    | false => rw [trimStart, List.dropWhile_cons_of_neg (by simp [hc])]
    | true =>
      have hopen : c ≠ '[' := ne_of_apply_ne isBlank (by rw [hc]; decide)
      rw [trimStart, List.dropWhile_cons_of_pos hc, ← trimStart, ih, isDimensions, if_neg hopen, hc, Bool.true_and]

/-- In a row of array brackets, a text either begins outside of brackets or behind one that is left open. -/
theorem isDimensions_append : ∀ {inside : Bool} {s t : Text}, isDimensions inside (s ++ t) = true →
    isDimensions false t = true ∨ (inside = true ∧ ']' ∉ s) ∨ ∃ front back, s = front ++ '[' :: back ∧ ']' ∉ back
  | false, [], _, h => .inl h
  | true, [], _, _ => .inr (.inl ⟨rfl, List.not_mem_nil⟩)
  | inside, c :: s, t, h => by
    have hcons : (∃ front back, s = front ++ '[' :: back ∧ ']' ∉ back) →
        ∃ front back, c :: s = front ++ '[' :: back ∧ ']' ∉ back := by
      rintro ⟨front, back, rfl, hback⟩
      exact ⟨c :: front, back, rfl, hback⟩
    cases inside with
    | true =>
      rw [List.cons_append, isDimensions] at h
      rcases isDimensions_append h with ht | ⟨hc, hs⟩ | hs
      · exact .inl ht
      · exact .inr (.inl ⟨rfl, List.not_mem_cons_of_ne_of_not_mem (Ne.symm (bne_iff_ne.1 hc)) hs⟩)
      · exact .inr (.inr (hcons hs))
    | false =>
      rw [List.cons_append, isDimensions] at h
      split at h
      · rename_i hopen
        rcases isDimensions_append h with ht | ⟨-, hs⟩ | hs
        · exact .inl ht
        · exact .inr (.inr ⟨[], s, by rw [hopen]; rfl, hs⟩)
        · exact .inr (.inr (hcons hs))
      · rcases isDimensions_append (Bool.and_eq_true_iff.1 h).2 with ht | ⟨hfalse, -⟩ | hs
        · exact .inl ht
        · cases hfalse
        · exact .inr (.inr (hcons hs))

/-- Behind every opening array bracket of the text stands a closing one. -/
def ClosesArrays (s : Text) : Prop := ∀ front back, s = front ++ '[' :: back → ']' ∈ back

theorem ClosesArrays.of_suffix {s t : Text} (h : ClosesArrays s) (ht : t <:+ s) : ClosesArrays t := by
  obtain ⟨front, rfl⟩ := ht
  rintro front' back rfl
  exact h (front ++ front') back (by rw [List.append_assoc])

/-- A row of array brackets as it stands right behind a name, with no blanks around it. -/
structure IsArray (dimensions : Text) : Prop where
  opens : ∀ c ∈ dimensions.head?, c = '['
  ends : ∀ c ∈ dimensions.getLast?, isBlank c = false
  row : isDimensions false dimensions = true

theorem isArray_nil : IsArray [] := ⟨by simp, by simp, rfl⟩

/-- Right behind a type come the name and its brackets. -/
theorem nameAfter?_name {last : Char} (hlast : endsType last = true) {name dimensions : Text}
    (hname : isName name = true) (hdims : IsArray dimensions) :
    nameAfter? last (' ' :: (name ++ dimensions)) = some ([' '], name, dimensions) := by
  cases name with
  | nil => cases hname
  | cons c rest =>
    have hword := all_isWordChar_of_isName hname
    rw [isName, Bool.and_eq_true] at hname
    have hc : isBlank c = false := Text.isBlank_of_isWordChar (hword c List.mem_cons_self)
    obtain ⟨hleading, hstart⟩ := @Text.trimStart_append [' '] (c :: rest ++ dimensions) (by simp [isBlank])
      fun d hd => by cases hd; exact hc
    have hrest : ∀ d ∈ rest, isWordChar d = true := fun d hd => hword d (List.mem_cons_of_mem _ hd)
    -- The name ends before the first bracket, which is neither a word character nor a blank.
    have hbracket : dimensions.takeWhile isWordChar = [] ∧ dimensions.dropWhile isWordChar = dimensions ∧
        trimStart dimensions = dimensions := by
      cases dimensions with
      | nil => exact ⟨rfl, rfl, rfl⟩
      | cons d dims =>
        obtain rfl := hdims.opens d rfl
        exact ⟨List.takeWhile_cons_of_neg (by decide), List.dropWhile_cons_of_neg (by decide),
          List.dropWhile_cons_of_neg (by decide)⟩
    have htake : Text.leadingWord (rest ++ dimensions) = rest := by
      rw [Text.leadingWord, List.takeWhile_append_of_pos hrest, hbracket.1, List.append_nil]
    have hdrop : trimStart ((rest ++ dimensions).dropWhile isWordChar) = dimensions := by
      rw [List.dropWhile_append_of_pos hrest, hbracket.2.1, hbracket.2.2]
    have hends : (last == '*' || last == '&' || ((isWordChar last || last == '>' || last == ']') &&
        !([' '] : Text).isEmpty)) = true := by
      rw [endsType] at hlast
      revert hlast
      cases isWordChar last <;> cases last == '>' <;> cases last == ']' <;> cases last == '*' <;> simp
    rw [List.singleton_append, List.cons_append] at hleading hstart
    simp only [nameAfter?, hleading, hstart, hends, hname.1, hdrop, htake, hdims.row, List.cons_append]
    rfl

/-- Before the end of a type no name is found: what is behind it would have to be array brackets, and the name would
have to stand in one of them. -/
theorem nameAfter?_eq_none (first : Char) {s name : Text} {last : Char} (hlast : isBlank last = false)
    (hclosed : ClosesArrays (s ++ [last])) (hname : isName name = true) (dimensions : Text) :
    nameAfter? first (s ++ last :: ' ' :: (name ++ dimensions)) = none := by
  obtain ⟨c, rest, hrest⟩ : ∃ c rest, trimStart s ++ [last] = c :: rest := List.exists_cons_of_ne_nil (by simp)
  have hstart : trimStart (s ++ last :: ' ' :: (name ++ dimensions)) = c :: (rest ++ ' ' :: (name ++ dimensions)) := by
    rw [Text.trimStart_append_cons hlast, ← List.singleton_append, ← List.append_assoc, hrest]
    rfl
  have hdrop : (rest ++ ' ' :: (name ++ dimensions)).dropWhile isWordChar =
      rest.dropWhile isWordChar ++ ' ' :: (name ++ dimensions) := by
    have hspace : (' ' :: (name ++ dimensions)).dropWhile isWordChar = ' ' :: (name ++ dimensions) :=
      List.dropWhile_cons_of_neg (by decide)
    rw [List.dropWhile_append]
    split
    · rename_i hempty
      rw [hspace, List.isEmpty_iff.1 hempty, List.nil_append]
    · rfl
  have hsuffix : rest.dropWhile isWordChar <:+ s ++ [last] := by
    have htrim : trimStart s ++ [last] <:+ s ++ [last] :=
      ⟨Text.leadingBlanks s, by rw [← List.append_assoc, Text.leadingBlanks_append_trimStart]⟩
    exact ((List.dropWhile_suffix _).trans (List.suffix_cons c rest)).trans (hrest ▸ htrim)
  have hrow : isDimensions false (trimStart ((rest ++ ' ' :: (name ++ dimensions)).dropWhile isWordChar)) = false := by
    rw [isDimensions_trimStart, hdrop, ← Bool.not_eq_true]
    intro hrow
    rcases isDimensions_append hrow with hrow | ⟨hfalse, -⟩ | ⟨front, back, heq, hback⟩
    · cases name with
      | nil => cases hname
      | cons d name =>
        have hword : isWordChar d = true := all_isWordChar_of_isName hname d List.mem_cons_self
        have hopen : d ≠ '[' := ne_of_apply_ne isWordChar (by rw [hword]; decide)
        simp [isDimensions, hopen, Text.isBlank_of_isWordChar hword] at hrow
    · cases hfalse
    · exact hback (hclosed.of_suffix hsuffix front back heq)
  simp only [nameAfter?, hstart, hrow, Bool.and_false, Bool.false_eq_true, if_false]

/-- A type and a name behind it are told apart at the end of the type. -/
theorem cutAtName?_declared {name dimensions : Text} (hname : isName name = true) (hdims : IsArray dimensions) :
    ∀ {type : Text} {last : Char}, type.getLast? = some last → endsType last = true → ClosesArrays type → '\n' ∉ type →
    cutAtName? (type ++ ' ' :: (name ++ dimensions)) = some (type ++ [' '], name, dimensions)
  | [], _, hlast, _, _, _ => by cases hlast
  | [c], last, hlast, hends, _, _ => by
    obtain rfl : c = last := by simpa using hlast
    rw [List.singleton_append, cutAtName?, nameAfter?_name hends hname hdims]
    rfl
  | c :: d :: type, last, hlast, hends, hclosed, hline => by
    have hrest : (d :: type).getLast? = some last := hlast
    have hrestClosed : ClosesArrays (d :: type) := hclosed.of_suffix (List.suffix_cons c _)
    rw [List.mem_cons, not_or] at hline
    obtain ⟨s, hs⟩ := List.getLast?_eq_some_iff.1 hrest
    have hnone : nameAfter? c (d :: type ++ ' ' :: (name ++ dimensions)) = none := by
      rw [hs] at hrestClosed ⊢
      rw [List.append_assoc]
      exact nameAfter?_eq_none c (isBlank_of_endsType hends) hrestClosed hname dimensions
    rw [List.cons_append, cutAtName?, hnone, cutAtName?_declared hname hdims hrest hends hrestClosed hline.2]
    simp [Ne.symm hline.1]

variable {type name dimensions : Text} {last : Char}

/-- A type, a name and its brackets have no blanks around them. -/
theorem trim_declared (htrim : trim type = type) (hlast : type.getLast? = some last) (hname : isName name = true)
    (hdims : IsArray dimensions) : trim (type ++ ' ' :: (name ++ dimensions)) = type ++ ' ' :: (name ++ dimensions) := by
  have hne : type ≠ [] := fun hnil => by
    rw [hnil] at hlast
    cases hlast
  refine Text.trim_eq_self_iff.2 ⟨fun c hc => ?_, fun c hc => ?_⟩
  · rw [List.head?_append_of_ne_nil _ hne] at hc
    exact (Text.trim_eq_self_iff.1 htrim).1 c hc
  · have hcore : type ++ ' ' :: (name ++ dimensions) = (type ++ [' '] ++ name) ++ dimensions := by simp
    rw [hcore, List.getLast?_append, Option.mem_def, Option.or_eq_some_iff] at hc
    refine hc.elim (hdims.ends c) fun hc => ?_
    rw [List.getLast?_append_of_ne_nil _ (ne_nil_of_isName hname)] at hc
    exact Text.isBlank_of_isWordChar (all_isWordChar_of_isName hname c (List.mem_of_getLast? hc.2))

/-- A part of a list that has a type and a name, perhaps with brackets, is read as these. -/
theorem ofText?_declared (htrim : trim type = type) (hlast : type.getLast? = some last) (hends : endsType last = true)
    (hclosed : ClosesArrays type) (hequal : '=' ∉ type) (hline : '\n' ∉ type) (hname : isName name = true)
    (hdims : IsArray dimensions) (hequalDims : '=' ∉ dimensions) :
    ofText? (type ++ ' ' :: (name ++ dimensions)) = some ⟨type ++ Text.squeeze dimensions, name⟩ := by
  have hbefore : Text.before '=' (type ++ ' ' :: (name ++ dimensions)) = type ++ ' ' :: (name ++ dimensions) := by
    have hequalName : '=' ∉ name := not_mem_of_isName hname (by decide)
    refine List.takeWhile_eq_self_iff.2 fun c hc => bne_iff_ne.2 ?_
    rintro rfl
    simp [hequal, hequalName, hequalDims] at hc
  have htype : trim (type ++ [' ']) = type := (Text.trim_append_of_blank (by simp [isBlank]) type).trans htrim
  rw [ofText?, hbefore, trim_declared htrim hlast hname hdims, cutAtName?_declared hname hdims hlast hends hclosed hline,
    Option.map_some]
  simp only [htype]

end Declared
end Parameter
end DocLint
