import DocLint.Signature

/-!
# Runs of qualifiers

What may follow a parameter list are qualifiers and definitions, each of one or two words
(`Signature.IsQualifierRun`). A word can begin one of them in one way only, so that tokens have a longest run
(`Signature.IsLongestRun.unique`), and the reader takes it (`Signature.exists_isLongestRun`).
-/

namespace DocLint
namespace Signature

/-- A run of qualifiers, and how it is written in a signature. Words lose the terminators that they end with. -/
inductive IsQualifierRun : List Token → List Token → Prop
  | nil : IsQualifierRun [] []
  | qualifier {word : Text} {rest kept : List Token} : unended word ∈ qualifiers → IsQualifierRun rest kept →
      IsQualifierRun (.word word :: rest) (.word (unended word) :: kept)
  | glued {word value : Text} {rest kept : List Token} : unended word = '=' :: value → value ∈ definitions →
      IsQualifierRun rest kept → IsQualifierRun (.word word :: rest) (.word ['='] :: .word value :: kept)
  | separate {word value : Text} {rest kept : List Token} : unended word = ['='] → unended value ∈ definitions →
      IsQualifierRun rest kept →
      IsQualifierRun (.word word :: .word value :: rest) (.word ['='] :: .word (unended value) :: kept)

/-- The tokens begin with the run `taken`, and with no run that goes beyond it. -/
structure IsLongestRun (tokens taken kept : List Token) : Prop where
  front : taken <+: tokens
  run : IsQualifierRun taken kept
  longest : ∀ taken' kept', taken' <+: tokens → IsQualifierRun taken' kept' → taken' <+: taken

variable {word : Text} {rest taken kept : List Token}

/-! ## Runs -/

/-- A word with an equals sign in front is no qualifier. -/
theorem not_mem_qualifiers {s : Text} : '=' :: s ∉ qualifiers := by
  simp [qualifiers]

theorem nil_not_mem_definitions : ([] : Text) ∉ definitions := by
  simp [definitions]

/-- A run that begins with a word has one of three forms. -/
theorem IsQualifierRun.cases_word {tokens : List Token} (hrun : IsQualifierRun taken kept)
    (hfront : taken <+: .word word :: tokens) : taken = [] ∨
      (unended word ∈ qualifiers ∧
        ∃ rest kept', taken = .word word :: rest ∧ rest <+: tokens ∧ IsQualifierRun rest kept') ∨
      (∃ value ∈ definitions, unended word = '=' :: value ∧
        ∃ rest kept', taken = .word word :: rest ∧ rest <+: tokens ∧ IsQualifierRun rest kept') ∨
      (unended word = ['='] ∧ ∃ value others rest kept', tokens = .word value :: others ∧
        unended value ∈ definitions ∧ taken = .word word :: .word value :: rest ∧ rest <+: others ∧
        IsQualifierRun rest kept') := by
  cases hrun with
  | nil => exact .inl rfl
  | qualifier hword hrun =>
    obtain ⟨heq, hrest⟩ := List.cons_prefix_cons.1 hfront
    cases heq
    exact .inr (.inl ⟨hword, _, _, rfl, hrest, hrun⟩)
  | glued hword hvalue hrun =>
    obtain ⟨heq, hrest⟩ := List.cons_prefix_cons.1 hfront
    cases heq
    exact .inr (.inr (.inl ⟨_, hvalue, hword, _, _, rfl, hrest, hrun⟩))
  | separate hword hvalue hrun =>
    obtain ⟨heq, others, rfl⟩ := List.cons_prefix_cons.1 hfront
    cases heq
    exact .inr (.inr (.inr ⟨hword, _, _, _, _, rfl, hvalue, rfl, List.prefix_append _ _, hrun⟩))

/-- A run is written in one way only. -/
theorem IsQualifierRun.unique {kept' : List Token} (hrun : IsQualifierRun taken kept)
    (hrun' : IsQualifierRun taken kept') : kept = kept' := by
  induction hrun generalizing kept' with
  | nil => cases hrun'; rfl
  | qualifier hword _ ih =>
    cases hrun' with
    | qualifier _ hrest => rw [ih hrest]
    | glued hword' => exact absurd (hword' ▸ hword) not_mem_qualifiers
    | separate hword' => exact absurd (hword' ▸ hword) not_mem_qualifiers
  | glued hword hvalue _ ih =>
    cases hrun' with
    | qualifier hword' => exact absurd (hword ▸ hword') not_mem_qualifiers
    | glued hword' _ hrest =>
      cases hword.symm.trans hword'
      rw [ih hrest]
    | separate hword' =>
      cases hword.symm.trans hword'
      exact absurd hvalue nil_not_mem_definitions
  | separate hword _ _ ih =>
    cases hrun' with
    | qualifier hword' => exact absurd (hword ▸ hword') not_mem_qualifiers
    | glued hword' hvalue' =>
      cases hword.symm.trans hword'
      exact absurd hvalue' nil_not_mem_definitions
    | separate _ _ hrest => rw [ih hrest]

/-! ## The longest run -/

theorem IsLongestRun.unique {tokens taken' kept' : List Token} (h : IsLongestRun tokens taken kept)
    (h' : IsLongestRun tokens taken' kept') : taken = taken' ∧ kept = kept' := by
  have htaken : taken = taken' :=
    (h'.longest _ _ h.front h.run).eq_of_length_le (h.longest _ _ h'.front h'.run).length_le
  subst htaken
  exact ⟨rfl, h.run.unique h'.run⟩

/-- A run goes on as the first word and the tokens behind it allow. -/
theorem IsLongestRun.qualifier (hword : unended word ∈ qualifiers) (h : IsLongestRun rest taken kept) :
    IsLongestRun (.word word :: rest) (.word word :: taken) (.word (unended word) :: kept) where
  front := (List.prefix_cons_inj _).2 h.front
  run := .qualifier hword h.run
  longest taken' kept' hfront hrun := by
    rcases hrun.cases_word hfront with rfl | ⟨-, more, kept'', rfl, hmore, hrun'⟩ | ⟨_, _, heq, -⟩ | ⟨heq, -⟩
    · exact List.nil_prefix
    · exact (List.prefix_cons_inj _).2 (h.longest _ _ hmore hrun')
    · exact absurd (heq ▸ hword) not_mem_qualifiers
    · exact absurd (heq ▸ hword) not_mem_qualifiers

theorem IsLongestRun.glued {value : Text} (hword : unended word = '=' :: value) (hvalue : value ∈ definitions)
    (h : IsLongestRun rest taken kept) :
    IsLongestRun (.word word :: rest) (.word word :: taken) (.word ['='] :: .word value :: kept) where
  front := (List.prefix_cons_inj _).2 h.front
  run := .glued hword hvalue h.run
  longest taken' kept' hfront hrun := by
    rcases hrun.cases_word hfront with rfl | ⟨hmem, -⟩ | ⟨_, -, -, more, kept'', rfl, hmore, hrun'⟩ | ⟨heq, -⟩
    · exact List.nil_prefix
    · exact absurd (hword ▸ hmem) not_mem_qualifiers
    · exact (List.prefix_cons_inj _).2 (h.longest _ _ hmore hrun')
    · cases hword.symm.trans heq
      exact absurd hvalue nil_not_mem_definitions

theorem IsLongestRun.separate {value : Text} (hword : unended word = ['=']) (hvalue : unended value ∈ definitions)
    (h : IsLongestRun rest taken kept) :
    IsLongestRun (.word word :: .word value :: rest) (.word word :: .word value :: taken)
      (.word ['='] :: .word (unended value) :: kept) where
  front := (List.prefix_cons_inj _).2 ((List.prefix_cons_inj _).2 h.front)
  run := .separate hword hvalue h.run
  longest taken' kept' hfront hrun := by
    rcases hrun.cases_word hfront with
      rfl | ⟨hmem, -⟩ | ⟨_, hvalue', heq, -⟩ | ⟨-, _, _, more, kept'', htokens, -, rfl, hmore, hrun'⟩
    · exact List.nil_prefix
    · exact absurd (hword ▸ hmem) not_mem_qualifiers
    · cases hword.symm.trans heq
      exact absurd hvalue' nil_not_mem_definitions
    · cases htokens
      exact (List.prefix_cons_inj _).2 ((List.prefix_cons_inj _).2 (h.longest _ _ hmore hrun'))

/-- Tokens with which no run can begin. -/
theorem IsLongestRun.nil {tokens : List Token}
    (h : ∀ taken kept, taken <+: tokens → IsQualifierRun taken kept → taken = []) : IsLongestRun tokens [] [] where
  front := List.nil_prefix
  run := .nil
  longest taken kept hfront hrun := by exact h taken kept hfront hrun ▸ List.nil_prefix

/-- No run begins with a word that is neither a qualifier nor sets the declaration equal to something. -/
theorem IsLongestRun.none (hqualifier : unended word ∉ qualifiers)
    (hglued : ∀ value, unended word = '=' :: value → value ∉ definitions)
    (hseparate : unended word = ['='] → ∀ value others, rest = .word value :: others → unended value ∉ definitions) :
    IsLongestRun (.word word :: rest) [] [] := by
  refine .nil fun taken kept hfront hrun => ?_
  rcases hrun.cases_word hfront with
    hnil | ⟨hmem, -⟩ | ⟨value, hvalue, heq, -⟩ | ⟨heq, value, others, _, _, hrest, hvalue, -⟩
  · exact hnil
  · exact absurd hmem hqualifier
  · exact absurd hvalue (hglued value heq)
  · exact absurd hvalue (hseparate heq value others hrest)

/-- **The reader takes the longest run of qualifiers.** -/
theorem exists_isLongestRun (tokens : List Token) : ∃ taken, IsLongestRun tokens taken (readQualifiers tokens) := by
  fun_induction readQualifiers tokens with
  | case1 word rest _ hqualifier ih =>
    obtain ⟨taken, hrest⟩ := ih
    exact ⟨_, hrest.qualifier (List.contains_iff_mem.1 hqualifier)⟩
  | case2 word rest _ _ c value hword hvalue ih =>
    obtain ⟨taken, hrest⟩ := ih
    exact ⟨_, hrest.glued hword (List.contains_iff_mem.1 hvalue)⟩
  | case3 word rest _ hqualifier c value hword hvalue =>
    refine ⟨[], .none (mt List.contains_iff_mem.2 hqualifier) (fun value' heq => ?_) fun heq => ?_⟩
    · cases hword.symm.trans heq
      exact mt List.contains_iff_mem.2 hvalue
    · cases hword.symm.trans heq
  | case4 word _ _ hword value rest hvalue ih =>
    obtain ⟨taken, hrest⟩ := ih
    exact ⟨_, hrest.separate hword (List.contains_iff_mem.1 hvalue)⟩
  | case5 word _ hqualifier hword value rest hvalue =>
    refine ⟨[], .none (mt List.contains_iff_mem.2 hqualifier) (fun value' heq => ?_) fun _ value' others heq => ?_⟩
    · cases hword.symm.trans heq
      exact nil_not_mem_definitions
    · cases heq
      exact mt List.contains_iff_mem.2 hvalue
  | case6 word rest _ hqualifier hword hno =>
    refine ⟨[], .none (mt List.contains_iff_mem.2 hqualifier) (fun value' heq => ?_) fun _ value' others heq => ?_⟩
    · cases hword.symm.trans heq
      exact nil_not_mem_definitions
    · exact absurd heq (hno value' others)
  | case7 word rest _ hqualifier hglued hseparate =>
    refine ⟨[], .none (mt List.contains_iff_mem.2 hqualifier) (fun value' heq => ?_) fun heq => absurd heq hseparate⟩
    cases value' with
    | nil => exact absurd heq hseparate
    | cons c value' => exact absurd heq (hglued c value')
  | case8 tokens hno =>
    refine ⟨[], .nil fun taken kept hfront hrun => ?_⟩
    cases hrun with
    | nil => rfl
    | qualifier | glued | separate =>
      obtain ⟨others, rfl⟩ := hfront
      exact absurd rfl (hno _ _)

end Signature
end DocLint
