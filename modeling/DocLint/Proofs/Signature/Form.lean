import DocLint.Proofs.Signature.Grammar

/-!
# The form of a declaration

Three readers look at the name token of a declaration: one decides whether it can name a method, one takes its scopes and
markers off, and one reads the form of the declaration from it. They find the same name in it, unless three colons stand
in a row (`Signature.ofLine?_name`). The declaration is that of a destructor if the name begins with a tilde
(`Signature.formOf_eq_destructor_iff`), and otherwise that of a constructor if the scope right before the name is the
name itself (`Signature.formOf_eq_constructor_iff`).
-/

namespace DocLint

open Text (trim)

namespace NameToken

/-! ## The scope before a name -/

section Scope

variable {name s : Text}

/-- The text ends with the scope of this name: with the name and the mark of a scope, behind nothing or another scope. -/
def EndsInScope (name s : Text) : Prop := ∃ outer, (outer = [] ∨ scopeMark <:+ outer) ∧ s = outer ++ name ++ scopeMark

theorem endsInScope_append_iff (h : ':' ∉ name) : EndsInScope name (s ++ scopeMark) ↔ last s = name := by
  rw [last_eq_iff h]
  exact exists_congr fun outer => and_congr_right fun _ => List.append_left_inj scopeMark

theorem endsInScope_iff (h : ':' ∉ name) : EndsInScope name s ↔
    ∃ scope, scopeMark.isSuffixOf? s = some scope ∧ last scope = name := by
  constructor
  · intro hends
    obtain ⟨outer, houter, rfl⟩ := hends
    exact ⟨outer ++ name, List.isSuffixOf?_eq_some_iff_append_eq.2 rfl, (last_eq_iff h).2 ⟨outer, houter, rfl⟩⟩
  · rintro ⟨scope, hs, hlast⟩
    rw [← List.isSuffixOf?_eq_some_iff_append_eq.1 hs]
    exact (endsInScope_append_iff h).2 hlast

/-- A text without a mark at its end ends in no scope. -/
theorem not_endsInScope (h : ¬ scopeMark <:+ s) : ¬ EndsInScope name s := by
  rintro ⟨outer, -, rfl⟩
  exact h (List.suffix_append _ _)

/-- The token that names `name` has the name itself as the scope right before it. -/
def RepeatsScope (token name : Text) : Prop := ∃ scope, unmarked token = scope ++ name ∧ EndsInScope name scope

/-- The parts of a token show whether it repeats the scope. -/
theorem getLast?_dropLast_segments {token : Text} (h : isCallable token = true) (hcolons : ¬ threeColons <:+: token) :
    (segments (unmarked token)).dropLast.getLast? = some (plain token) ↔ RepeatsScope token (plain token) := by
  have hcolon := not_mem_of_isCallable h (.inl rfl)
  have hthree : ¬ threeColons <:+: unmarked token := fun hthree => hcolons (hthree.trans (List.dropWhile_suffix _).isInfix)
  obtain ⟨outer, houter, hunmarked⟩ := (last_eq_iff hcolon).1 rfl
  rw [← plain_eq_last_unmarked h] at hcolon hunmarked
  have hname : segments (plain token) = [plain token] := segments_of_afterScope? (afterScope?_eq_none hcolon)
  have hscope : RepeatsScope token (plain token) ↔ EndsInScope (plain token) outer := by
    constructor
    · rintro ⟨scope, hscope, hends⟩
      rwa [List.append_cancel_right (hunmarked.symm.trans hscope)]
    · exact fun hends => ⟨outer, hunmarked, hends⟩
  rw [hscope]
  rcases houter with rfl | ⟨scope, rfl⟩
  · rw [hunmarked, List.nil_append, hname]
    exact iff_of_false (by simp) (not_endsInScope (by decide))
  · rw [hunmarked, List.append_assoc] at hthree
    have hscopeThree : ¬ threeColons <:+: scope := fun h => hthree (h.trans (List.prefix_append _ _).isInfix)
    rw [hunmarked, List.append_assoc, segments_append hthree, hname, List.dropLast_concat,
      getLast?_segments hscopeThree, Option.some.injEq, endsInScope_append_iff hcolon]

end Scope
end NameToken

namespace Signature

open NameToken

/-! ## Forms -/

section Forms

variable {lead : List Token} {name : Text}

/-- The scope right before the name is the name itself. It stands in the name token or ends the token before. -/
def HasOwnScope (lead : List Token) (token name : Text) : Prop :=
  RepeatsScope token name ∨ ∃ before ∈ lead.getLast?, EndsInScope name before.text

theorem last_segment_eq (h : isCallable name = true) (hcolons : ¬ threeColons <:+: name) :
    (segments (unmarked name)).getLast? = some (plain name) := by
  rw [plain_eq_last_unmarked h]
  exact getLast?_segments fun hthree => hcolons (hthree.trans (List.dropWhile_suffix _).isInfix)

/-- What decides about the form. -/
theorem formOf_cases (h : isCallable name = true) (hcolons : ¬ threeColons <:+: name) (lead : List Token) :
    (formOf lead name = .destructor ∧ (plain name).head? = some '~') ∨
    (formOf lead name = .constructor ∧ (plain name).head? ≠ some '~' ∧ HasOwnScope lead name (plain name)) ∨
    (formOf lead name = .method ∧ (plain name).head? ≠ some '~' ∧ ¬ HasOwnScope lead name (plain name)) := by
  have hcolon : ':' ∉ plain name := by
    rw [plain_eq_last_unmarked h]
    exact not_mem_of_isCallable h (.inl rfl)
  have hlast : (segments (unmarked name)).getLastD [] = plain name := by
    rw [List.getLastD_eq_getLast?, last_segment_eq h hcolons, Option.getD_some]
  have hinside := getLast?_dropLast_segments h hcolons
  have hword : "::".toList = scopeMark := rfl
  simp only [formOf, hlast, HasOwnScope, ← hinside, hword]
  by_cases htilde : (plain name).head? = some '~'
  · exact .inl ⟨if_pos htilde, htilde⟩
  refine .inr ?_
  rw [if_neg htilde]
  by_cases hrepeats : (segments (unmarked name)).dropLast.getLast? = some (plain name)
  · exact .inl ⟨if_pos hrepeats, htilde, .inl hrepeats⟩
  rw [if_neg hrepeats]
  simp only [hrepeats, false_or]
  -- The token before the name decides.
  cases hlead : lead.getLast? with
  | none => exact .inr ⟨rfl, htilde, by simp⟩
  | some before =>
    simp only [Option.mem_def, Option.some.injEq, exists_eq_left']
    cases before with
    | openParen | closeParen | comma => exact .inr ⟨rfl, htilde, not_endsInScope (by decide)⟩
    | word w =>
      dsimp only
      rw [Token.text, endsInScope_iff hcolon]
      cases hscope : scopeMark.isSuffixOf? w with
      | none => exact .inr ⟨rfl, htilde, by simp⟩
      | some scope =>
        simp only [Option.some.injEq, exists_eq_left']
        by_cases hsame : last scope = plain name
        · exact .inl ⟨if_pos hsame, htilde, hsame⟩
        · exact .inr ⟨if_neg hsame, htilde, hsame⟩

theorem formOf_eq_destructor_iff (h : isCallable name = true) (hcolons : ¬ threeColons <:+: name) :
    formOf lead name = .destructor ↔ (plain name).head? = some '~' := by
  rcases formOf_cases h hcolons lead with ⟨hform, htilde⟩ | ⟨hform, htilde, -⟩ | ⟨hform, htilde, -⟩ <;> simp [hform, htilde]

theorem formOf_eq_constructor_iff (h : isCallable name = true) (hcolons : ¬ threeColons <:+: name)
    (hform : formOf lead name ≠ .destructor) :
    formOf lead name = .constructor ↔ HasOwnScope lead name (plain name) := by
  rcases formOf_cases h hcolons lead with ⟨heq, -⟩ | ⟨heq, -, hscope⟩ | ⟨heq, -, hscope⟩
  · exact absurd heq hform
  · exact iff_of_true heq hscope
  · exact iff_of_false (by rw [heq]; decide) hscope

end Forms

/-! ## The name of a declaration -/

section Readers

/-- The readers of the name token tell the same about the declaration `s`, before whose name the tokens `lead` stand. -/
structure ReadsAlike (lead : List Token) (s : Signature) : Prop where
  /-- The name is what the markers leave first and the scopes then. -/
  fromEnd : last (unmarked s.name) = s.plainName
  /-- The name is the last part from the front. -/
  fromFront : (segments (unmarked s.name)).getLast? = some s.plainName
  identifier : ∃ tilde ident, s.plainName = tilde ++ ident ∧ IsTilde tilde ∧ isIdentifier ident = true ∧ ident ∉ reserved
  bare : ∀ c ∈ s.plainName, c ≠ ':' ∧ c ≠ '*' ∧ c ≠ '&'
  destructor_iff : s.form = .destructor ↔ ['~'] <+: s.plainName
  constructor_iff : s.form ≠ .destructor → (s.form = .constructor ↔ HasOwnScope lead s.name s.plainName)
  untyped : s.form ≠ .method → s.returnType = []

/-- **The readers of the name token agree**, unless three colons stand in a row in it. Without scopes and markers the name
is an identifier that is not reserved, perhaps behind a tilde, and has neither colons nor markers. A tilde makes a
destructor. Any other name makes a constructor if the scope right before it is the name itself, be it in the name token
or at the end of the token before, and else a method. Constructors and destructors have no return type. -/
theorem ofLine?_name {line : Text} {s : Signature} (h : ofLine? line = some s) (hcolons : ¬ ":::".toList <:+: s.name) :
    ∃ lead list after, Decomposes (Token.scan (trim line)) lead s.name list after ∧ ReadsAlike lead s := by
  obtain ⟨-, -, lead, name, list, after, hparts, rfl⟩ := ofLine?_eq_some_iff.1 h
  have hcallable : isCallable name = true := isCallable_iff.2 hparts.name
  have hplain : plain name = last (unmarked name) := plain_eq_last_unmarked hcallable
  refine ⟨lead, list, after, hparts, ?_⟩
  exact {
    fromEnd := hplain.symm
    fromFront := last_segment_eq hcallable hcolons
    identifier := by
      show ∃ tilde ident, plain name = _ ∧ _
      rw [hplain]
      exact exists_ident_of_isCallable hcallable
    bare := fun c hc => by
      have hno : ∀ d, (d = ':' ∨ isMarker d = true) → c ≠ d := by
        rintro d hd rfl
        exact not_mem_of_isCallable hcallable hd (hplain ▸ hc)
      exact ⟨hno ':' (.inl rfl), hno '*' (.inr rfl), hno '&' (.inr rfl)⟩
    destructor_iff := (formOf_eq_destructor_iff hcallable hcolons).trans List.singleton_prefix_iff_head?_eq_some.symm
    constructor_iff := formOf_eq_constructor_iff hcallable hcolons
    untyped := fun hform => if_neg hform }

/-- The scope of the constructor is a token of its own, behind another scope. -/
theorem ofLine?_name_scope_before : ∃ s, ofLine? "rpg::Vital:: Vital(int base);".toList = some s ∧
    ¬ ":::".toList <:+: s.name ∧ s.form = .constructor ∧
    ∃ lead list after, Decomposes (Token.scan (trim "rpg::Vital:: Vital(int base);".toList)) lead s.name list after ∧
      ReadsAlike lead s := by
  have h : ofLine? "rpg::Vital:: Vital(int base);".toList =
      some ⟨[], "Vital".toList, .constructor, "rpg::Vital:: Vital(int base);".toList⟩ := by decide +kernel
  have hcolons : ¬ ":::".toList <:+: "Vital".toList := by decide
  exact ⟨_, h, hcolons, rfl, ofLine?_name h hcolons⟩

/-- Of three colons the first two are a mark for the reader from the front, which misses the tilde. -/
example : (ofLine? "void A:::~b();".toList).map (fun s => (s.form, s.plainName)) = some (.method, "~b".toList) := by
  decide +kernel

end Readers
end Signature
end DocLint
