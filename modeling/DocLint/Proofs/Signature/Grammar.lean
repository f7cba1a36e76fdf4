import Mathlib.Data.List.DropRight
import DocLint.Proofs.Signature.Decomposition
import DocLint.Proofs.Signature.QualifierRun
import DocLint.Proofs.Signature.Token

/-!
# The grammar of declaration lines

A line that is no remark declares a method exactly if its tokens are those of a declaration
(`Signature.ofLine?_eq_some_iff`). Its signature has the longest ending without specifiers of what stands before the
name as type (`Signature.IsTypeOf`), and the longest run of qualifiers that comes after the parameter list. All of this
is in `Signature.ofLine?_grammar`.
-/

namespace DocLint

open Text (trim)

namespace Signature

/-! ## Types -/

section Types

/-- The longest ending of `lead` without specifiers. -/
structure IsTypeOf (lead type : List Token) : Prop where
  ending : type <:+ lead
  plain : ∀ t ∈ type, t.text ∉ specifiers
  longest : ∀ type', type' <:+ lead → (∀ t ∈ type', t.text ∉ specifiers) → type' <:+ type

variable {lead type : List Token}

theorem not_isSpecifier_iff {t : Token} : (!isSpecifier t) = true ↔ t.text ∉ specifiers := by
  rw [Bool.not_eq_true', ← Bool.not_eq_true]
  cases t with
  | word w => exact not_congr List.contains_iff_mem
  | openParen | closeParen | comma => exact iff_of_true (by decide) (by decide)

/-- The tokens right before the name that are no specifiers. -/
theorem isTypeOf_rtakeWhile (lead : List Token) : IsTypeOf lead (lead.rtakeWhile fun t => !isSpecifier t) where
  ending := List.rtakeWhile_suffix _ _
  plain t ht := by
    have hno := List.mem_rtakeWhile_imp ht
    exact not_isSpecifier_iff.1 hno
  longest type' hending hplain := by
    obtain ⟨front, rfl⟩ := hending
    have hreverse : ∀ t ∈ type'.reverse, (!isSpecifier t) = true := fun t ht =>
      not_isSpecifier_iff.2 (hplain t (List.mem_reverse.1 ht))
    rw [List.rtakeWhile, List.reverse_append, List.takeWhile_append_of_pos hreverse, List.reverse_append,
      List.reverse_reverse]
    exact List.suffix_append _ _

theorem IsTypeOf.unique {type' : List Token} (h : IsTypeOf lead type) (h' : IsTypeOf lead type') : type = type' :=
  (h'.longest _ h.ending h.plain).eq_of_length_le (h.longest _ h'.ending h'.plain).length_le

/-- **The return type** is what stands before the name, and has its markers when anything does. -/
theorem returnTypeOf_eq (h : IsTypeOf lead type) (hproper : ∀ t ∈ lead, t.Proper) (name : Text) :
    returnTypeOf lead name = if type = [] then [] else Token.join type ++ NameToken.markers name := by
  cases h.unique (isTypeOf_rtakeWhile lead)
  have hempty : (Token.join (lead.rtakeWhile fun t => !isSpecifier t)).isEmpty = true ↔
      (lead.rtakeWhile fun t => !isSpecifier t) = [] := by
    rw [List.isEmpty_iff]
    cases htype : lead.rtakeWhile fun t => !isSpecifier t with
    | nil => exact iff_of_true rfl rfl
    | cons t rest =>
      have ht : t.Proper := hproper t ((List.rtakeWhile_suffix _ _).subset (htype ▸ List.mem_cons_self))
      refine iff_of_false (fun hjoin => ?_) (List.cons_ne_nil _ _)
      have hhead := Token.head?_join ht rest
      rw [hjoin] at hhead
      exact ht.text_ne_nil (List.head?_eq_none_iff.1 hhead.symm)
  show (if _ then _ else _) = _
  exact if_congr hempty rfl rfl

end Types

/-! ## Lines -/

section Lines

/-- What a comment or a directive begins with. -/
def remarkMarks : List Text := ["//".toList, "/*".toList, "*".toList, "#".toList]

theorem isRemark_iff {line : Text} : isRemark line = true ↔ ∃ mark ∈ remarkMarks, mark <+: line := by
  simp only [isRemark, remarkMarks, Bool.or_eq_true, List.isPrefixOf_iff_prefix, List.exists_mem_cons_iff,
    List.not_mem_nil, false_and, exists_false, or_false, or_assoc]

/-- The semicolon or the brace that the line ends with, or nothing when it ends with neither. -/
def IsEndMark (line mark : Text) : Prop :=
  ((mark = [';'] ∨ mark = ['}']) ∧ mark <:+ line) ∨ (mark = [] ∧ ¬ [';'] <:+ line ∧ ¬ ['}'] <:+ line)

theorem isEndMark_endMark (line : Text) : IsEndMark line (endMark line) := by
  rcases List.eq_nil_or_concat' line with rfl | ⟨front, c, rfl⟩
  · exact .inr ⟨rfl, by simp, by simp⟩
  · have hsuffix : ∀ d : Char, [d] <:+ front ++ [c] ↔ d = c := fun d => by
      rw [List.singleton_suffix_iff_getLast?_eq_some]
      simp [eq_comm]
    simp only [IsEndMark, hsuffix, endMark, List.getLast?_concat]
    split_ifs with hmark
    · exact .inl ⟨hmark.imp (fun h => by rw [h]) (fun h => by rw [h]), List.suffix_append _ _⟩
    · obtain ⟨hsemicolon, hbrace⟩ := not_or.1 hmark
      exact .inr ⟨rfl, Ne.symm hsemicolon, Ne.symm hbrace⟩

/-- A line has a signature when it is no remark and its tokens are those of a declaration. -/
theorem ofLine?_eq_some_iff {line : Text} {s : Signature} : ofLine? line = some s ↔
    trim line ≠ [] ∧ isRemark (trim line) = false ∧ ∃ lead name list after,
      Decomposes (Token.scan (trim line)) lead name list after ∧
      s = {
        returnType := if formOf lead name = .method then returnTypeOf lead name else []
        name := name
        form := formOf lead name
        text := Token.join (lead ++ [.word name, .openParen] ++ list ++ [.closeParen] ++ readQualifiers after) ++
          endMark (trim line) } := by
  constructor
  · intro h
    simp only [ofLine?] at h
    split at h
    · cases h
    · rename_i hremark
      split at h
      · cases h
      · rename_i head hhead
        split at h
        · cases h
        · rename_i list after hcut
          cases h
          simp only [Bool.or_eq_true, not_or, List.isEmpty_iff, Bool.not_eq_true] at hremark
          have hparts := decomposes_iff.2 ⟨head.rest, hhead, hcut⟩
          exact ⟨hremark.1, hremark.2, head.lead, head.name, list, after, hparts, rfl⟩
  · rintro ⟨hne, hremark, lead, name, list, after, hparts, rfl⟩
    obtain ⟨rest, hhead, hcut⟩ := decomposes_iff.1 hparts
    have hempty : (trim line).isEmpty = false := by simpa using hne
    simp [ofLine?, hempty, hremark, hhead, hcut]

/-- **The lines that declare a method are those of a grammar.** A line that is not blank and no remark declares one
exactly if its tokens are `lead name ( list ) after`. It can be cut so in one way only. The signature has the name as
it is written and the text of the declaration up to the longest run of qualifiers that comes after the list, with the
mark that ends the line. A method returns what the longest ending of `lead` without specifiers says, together with
the markers of the name. When nothing stands between the specifiers and the name, the markers are no type of their
own, and the return type is empty. -/
theorem ofLine?_grammar (line : Text) :
    ((ofLine? line).isSome = true ↔ trim line ≠ [] ∧ (∀ mark ∈ remarkMarks, ¬ mark <+: trim line) ∧
      ∃ lead name list after, Decomposes (Token.scan (trim line)) lead name list after) ∧
    (∀ lead name list after lead' name' list' after', Decomposes (Token.scan (trim line)) lead name list after →
      Decomposes (Token.scan (trim line)) lead' name' list' after' →
        lead = lead' ∧ name = name' ∧ list = list' ∧ after = after') ∧
    (∀ s lead name list after, ofLine? line = some s → Decomposes (Token.scan (trim line)) lead name list after →
      s.name = name ∧
      (∃ taken kept mark, IsLongestRun after taken kept ∧ IsEndMark (trim line) mark ∧
        s.text = Token.join (lead ++ [.word name, .openParen] ++ list ++ [.closeParen] ++ kept) ++ mark) ∧
      (s.form = .method → ∃ type, IsTypeOf lead type ∧
        s.returnType = if type = [] then [] else Token.join type ++ NameToken.markers name)) := by
  refine ⟨?_, fun _ _ _ _ _ _ _ _ h h' => h.unique h', fun s lead name list after hline hparts => ?_⟩
  · have hremark : isRemark (trim line) = false ↔ ∀ mark ∈ remarkMarks, ¬ mark <+: trim line := by
      rw [← Bool.not_eq_true, isRemark_iff]
      exact ⟨fun h mark hmem hmark => h ⟨mark, hmem, hmark⟩, fun h ⟨mark, hmem, hmark⟩ => h mark hmem hmark⟩
    rw [Option.isSome_iff_exists, ← hremark]
    constructor
    · rintro ⟨s, hs⟩
      obtain ⟨hne, hremark, lead, name, list, after, hparts, -⟩ := ofLine?_eq_some_iff.1 hs
      exact ⟨hne, hremark, lead, name, list, after, hparts⟩
    · rintro ⟨hne, hremark, lead, name, list, after, hparts⟩
      exact ⟨_, ofLine?_eq_some_iff.2 ⟨hne, hremark, lead, name, list, after, hparts, rfl⟩⟩
  · obtain ⟨-, -, lead', name', list', after', hparts', rfl⟩ := ofLine?_eq_some_iff.1 hline
    obtain ⟨rfl, rfl, rfl, rfl⟩ := hparts.unique hparts'
    obtain ⟨taken, hrun⟩ := exists_isLongestRun after
    refine ⟨rfl, ⟨taken, _, _, hrun, isEndMark_endMark _, rfl⟩, fun hform => ⟨_, isTypeOf_rtakeWhile lead, ?_⟩⟩
    have hproper : ∀ t ∈ lead, t.Proper := fun t ht => by
      have hmem : t ∈ Token.scan (trim line) := by
        rw [hparts.tokens_eq]
        simp [ht]
      exact Token.proper_of_mem_scan t hmem
    rw [← returnTypeOf_eq (isTypeOf_rtakeWhile lead) hproper]
    exact if_pos hform

/-- A name with markers but no type before it has no return type. -/
theorem ofLine?_marked_name :
    ofLine? "virtual *clone() const;".toList =
        some ⟨[], "*clone".toList, .method, "virtual *clone() const;".toList⟩ ∧
      Decomposes (Token.scan (trim "virtual *clone() const;".toList)) [.word "virtual".toList] "*clone".toList []
        [.word "const;".toList] ∧
      IsTypeOf [.word "virtual".toList] [] ∧
      ([] : Text) ≠ Token.join [] ++ NameToken.markers "*clone".toList := by
  refine ⟨by decide +kernel, ?_, ?_, by decide⟩
  · have hhead : DeclarationHead.ofTokens? (Token.scan (trim "virtual *clone() const;".toList)) =
        some ⟨[.word "virtual".toList], "*clone".toList, [.closeParen, .word "const;".toList]⟩ := by decide +kernel
    exact decomposes_iff.2 ⟨_, hhead, rfl⟩
  · exact isTypeOf_rtakeWhile [.word "virtual".toList]

end Lines
end Signature
end DocLint
