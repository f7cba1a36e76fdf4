import DocLint.Proofs.Text
import DocLint.Signature.NameToken

/-!
# What a name token is made of

A token can name a method when it is put together of markers, scopes, perhaps a tilde, and an identifier that is not
reserved (`NameToken.isCallable_iff`). The scopes end with the last `::` of the token (`NameToken.afterScope?_append`),
because an identifier has no colon. Without three colons in a row it is the same whether the token is read from the end
or from the front (`NameToken.getLast?_segments`), and whether the markers go first or the scopes do
(`NameToken.plain_eq_last_unmarked`).
-/

namespace DocLint
namespace NameToken

/-! ## Scopes -/

section Scopes

/-- The mark that ends a scope. -/
def scopeMark : Text := "::".toList

/-- No mark begins with the last character of a scope or behind it. -/
theorem afterScope?_eq_none : ∀ {s : Text}, ':' ∉ s → afterScope? s = none
  | [], _ => rfl
  | c :: s, h => by
    obtain ⟨hc, hs⟩ := not_or.1 (mt List.mem_cons.2 h)
    rw [afterScope?, afterScope?_eq_none hs, if_neg fun h => hc h.1.symm]

theorem afterScope?_cons_colon {s : Text} (h : ':' ∉ s) : afterScope? (':' :: s) = none := by
  have hhead : s.head? ≠ some ':' := fun hhead => h (List.mem_of_head? hhead)
  rw [afterScope?, afterScope?_eq_none h, if_neg fun h => hhead h.2]

/-- A text without colons behind scopes is what follows the last of them. -/
theorem afterScope?_append {s : Text} (h : ':' ∉ s) : ∀ scope : Text,
    afterScope? (scope ++ (scopeMark ++ s)) = some s
  | [] => by
    show afterScope? (':' :: ':' :: s) = some s
    rw [afterScope?, afterScope?_cons_colon h]
    rfl
  | c :: scope => by rw [List.cons_append, afterScope?, afterScope?_append h scope]

/-- What follows the last scope stands behind its mark. -/
theorem exists_scope_of_afterScope? : ∀ {s name : Text}, afterScope? s = some name →
    ∃ scope, s = scope ++ (scopeMark ++ name)
  | [], _, h => by cases h
  | c :: s, name, h => by
    cases hs : afterScope? s with
    | some name' =>
      simp only [afterScope?, hs, Option.some.injEq] at h
      obtain ⟨scope, rfl⟩ := exists_scope_of_afterScope? hs
      exact ⟨c :: scope, by rw [h]; rfl⟩
    | none =>
      simp only [afterScope?, hs] at h
      split at h
      · rename_i hmark
        obtain ⟨rfl, hhead⟩ := hmark
        obtain ⟨rest, rfl⟩ := List.head?_eq_some_iff.1 hhead
        cases h
        exact ⟨[], rfl⟩
      · cases h

/-- A name without colons follows the last scope of a text, or is the whole text. -/
theorem last_eq_iff {s name : Text} (h : ':' ∉ name) : last s = name ↔
    ∃ outer, (outer = [] ∨ scopeMark <:+ outer) ∧ s = outer ++ name := by
  constructor
  · intro hlast
    cases hscope : afterScope? s with
    | none =>
      rw [last, hscope, Option.getD_none] at hlast
      exact ⟨[], .inl rfl, hlast⟩
    | some name' =>
      rw [last, hscope, Option.getD_some] at hlast
      obtain ⟨outer, hs⟩ := exists_scope_of_afterScope? hscope
      exact ⟨outer ++ scopeMark, .inr (List.suffix_append _ _), by rw [List.append_assoc, ← hlast, hs]⟩
  · rintro ⟨outer, rfl | ⟨scope, rfl⟩, rfl⟩
    · rw [last, afterScope?_eq_none h, Option.getD_none]
    · rw [List.append_assoc, last, afterScope?_append h, Option.getD_some]

end Scopes

/-! ## Parts read from the front -/

section Segments

theorem segments_ne_nil (s : Text) : segments s ≠ [] := by
  fun_cases segments s with
  | case1 | case3 => exact List.cons_ne_nil _ _
  | case2 c rest =>
    cases segments rest <;> exact List.cons_ne_nil _ _

/-- A character that begins no mark belongs to the first part. -/
theorem segments_cons {c : Char} {s : Text} (h : c = ':' → s.head? ≠ some ':') :
    segments (c :: s) = Text.consHead c (segments s) := by
  rw [segments]
  rintro rest rfl rfl
  exact h rfl rfl

/-- Three colons in a row, of which the first two are a mark from the front and the last two from the end. -/
def threeColons : Text := ":::".toList

/-- If a text has no mark for the reader from the end, it is one part for the reader from the front. -/
theorem segments_of_afterScope? : ∀ {s : Text}, afterScope? s = none → segments s = [s]
  | [], _ => rfl
  | c :: s, h => by
    cases hs : afterScope? s with
    | some name => simp [afterScope?, hs] at h
    | none =>
      have hmark : c = ':' → s.head? ≠ some ':' := by simpa [afterScope?, hs] using h
      rw [segments_cons hmark, segments_of_afterScope? hs]
      rfl

/-- What follows the last mark has none itself. -/
theorem afterScope?_of_afterScope? : ∀ {s name : Text}, afterScope? s = some name → afterScope? name = none
  | [], _, h => by cases h
  | c :: s, name, h => by
    cases hs : afterScope? s with
    | some name' =>
      simp only [afterScope?, hs, Option.some.injEq] at h
      exact h ▸ afterScope?_of_afterScope? hs
    | none =>
      simp only [afterScope?, hs] at h
      split at h
      · cases h
        cases s with
        | nil => rfl
        | cons d s =>
          cases hrest : afterScope? s with
          | none => exact hrest
          | some name => simp [afterScope?, hrest] at hs
      · cases h

/-- Without three colons in a row, a mark separates the parts before and behind it. -/
theorem segments_append {t : Text} : ∀ {s : Text}, ¬ threeColons <:+: s ++ (scopeMark ++ t) →
    segments (s ++ (scopeMark ++ t)) = segments s ++ segments t := by
  intro s
  fun_induction segments s with
  | case1 rest ih =>
    intro h
    have hrest : ¬ threeColons <:+: rest ++ (scopeMark ++ t) := fun hthree =>
      h (hthree.trans ⟨"::".toList, [], by simp⟩)
    exact congrArg ([] :: ·) (ih hrest)
  | case2 c rest hmark ih =>
    intro h
    have hrest : ¬ threeColons <:+: rest ++ (scopeMark ++ t) := fun hthree =>
      h (hthree.trans (List.infix_cons List.infix_rfl))
    have hhead : c = ':' → (rest ++ (scopeMark ++ t)).head? ≠ some ':' := by
      rintro rfl
      cases rest with
      | nil => exact absurd ⟨[], t, rfl⟩ h
      | cons d rest => exact fun hd => hmark rest rfl (by rw [Option.some.inj hd])
    obtain ⟨first, others, hparts⟩ := List.exists_cons_of_ne_nil (segments_ne_nil rest)
    rw [List.cons_append, segments_cons hhead, ih hrest, hparts]
    rfl
  | case3 => exact fun _ => rfl

/-- **Without three colons in a row, the last part from the front is the last one from the end.** -/
theorem getLast?_segments {s : Text} (h : ¬ threeColons <:+: s) : (segments s).getLast? = some (last s) := by
  cases hscope : afterScope? s with
  | none => rw [segments_of_afterScope? hscope, last, hscope, Option.getD_none, List.getLast?_singleton]
  | some name =>
    obtain ⟨outer, rfl⟩ := exists_scope_of_afterScope? hscope
    rw [segments_append h, segments_of_afterScope? (afterScope?_of_afterScope? hscope), last, hscope, Option.getD_some,
      List.getLast?_concat]

end Segments

/-! ## Identifiers -/

section Identifiers

/-- A character that no identifier has. -/
theorem not_mem_of_isIdentifier {c : Char} (hc : (Text.isLetterOrNumber c || c == '_') = false)
    (hletter : (Text.isLetter c || c == '_') = false) {ident : Text} (h : isIdentifier ident = true) : c ∉ ident := by
  cases ident with
  | nil => exact List.not_mem_nil
  | cons d rest =>
    simp only [isIdentifier, Bool.and_eq_true, List.all_eq_true] at h
    intro hmem
    rcases List.mem_cons.1 hmem with rfl | hmem
    · rw [h.1] at hletter
      cases hletter
    · rw [h.2 c hmem] at hc
      cases hc

theorem colon_not_mem {ident : Text} (h : isIdentifier ident = true) : ':' ∉ ident :=
  not_mem_of_isIdentifier (by decide) (by decide) h

theorem tilde_not_mem {ident : Text} (h : isIdentifier ident = true) : '~' ∉ ident :=
  not_mem_of_isIdentifier (by decide) (by decide) h

theorem marker_not_mem {ident : Text} (h : isIdentifier ident = true) {c : Char} (hc : isMarker c = true) :
    c ∉ ident := by
  rw [isMarker, Bool.or_eq_true, beq_iff_eq, beq_iff_eq] at hc
  rcases hc with rfl | rfl
  · exact not_mem_of_isIdentifier (by decide) (by decide) h
  · exact not_mem_of_isIdentifier (by decide) (by decide) h

/-- The tilde of a destructor, or nothing. -/
def IsTilde (s : Text) : Prop := s = [] ∨ s = ['~']

theorem withoutTilde_append {tilde ident : Text} (htilde : IsTilde tilde) (h : isIdentifier ident = true) :
    withoutTilde (tilde ++ ident) = ident := by
  rcases htilde with rfl | rfl
  · cases ident with
    | nil => rfl
    | cons c rest =>
      have hc : '~' ≠ c := fun heq => tilde_not_mem h (heq ▸ List.mem_cons_self)
      rw [List.nil_append, withoutTilde]
      exact fun rest' heq => hc (List.cons.inj heq).1.symm
  · rfl

theorem exists_tilde (s : Text) : ∃ tilde, IsTilde tilde ∧ s = tilde ++ withoutTilde s := by
  unfold withoutTilde
  split
  · exact ⟨['~'], .inr rfl, rfl⟩
  · exact ⟨[], .inl rfl, rfl⟩

end Identifiers

/-! ## The name without scopes and markers -/

section Plain

variable {token : Text}

/-- The name of a callable token is an identifier, perhaps behind a tilde. -/
theorem exists_ident_of_isCallable (h : isCallable token = true) : ∃ tilde ident, last (unmarked token) = tilde ++ ident ∧
    IsTilde tilde ∧ isIdentifier ident = true ∧ ident ∉ reserved := by
  simp only [isCallable, Bool.and_eq_true, Bool.not_eq_true', List.contains_eq_mem, decide_eq_false_iff_not] at h
  obtain ⟨tilde, htilde, hlast⟩ := exists_tilde (last (unmarked token))
  exact ⟨tilde, _, hlast, htilde, h.1, h.2⟩

/-- The name has no colon and no marker. -/
theorem not_mem_of_isCallable (h : isCallable token = true) {c : Char} (hc : c = ':' ∨ isMarker c = true) :
    c ∉ last (unmarked token) := by
  obtain ⟨tilde, ident, hlast, htilde, hident, -⟩ := exists_ident_of_isCallable h
  rw [hlast, List.mem_append, not_or]
  have hne : c ≠ '~' := by
    rintro rfl
    exact absurd hc (by decide)
  constructor
  · rcases htilde with rfl | rfl <;> simp [hne]
  · rcases hc with rfl | hc
    · exact colon_not_mem hident
    · exact marker_not_mem hident hc

/-- **The name is the same whether the markers go first or the scopes do.** -/
theorem plain_eq_last_unmarked (h : isCallable token = true) : plain token = last (unmarked token) := by
  have hcolon := not_mem_of_isCallable h (.inl rfl)
  obtain ⟨outer, houter, hunmarked⟩ := (last_eq_iff hcolon).1 rfl
  have htoken : markers token ++ unmarked token = token := List.takeWhile_append_dropWhile
  rcases houter with rfl | ⟨scope, rfl⟩
  · -- Markers are no colons, so there is no scope to leave out.
    have hall : ':' ∉ token := by
      rw [← htoken, hunmarked, List.nil_append, List.mem_append, not_or]
      exact ⟨fun hmem => absurd (List.mem_takeWhile_imp hmem) (by decide), hcolon⟩
    rw [plain, last, afterScope?_eq_none hall, Option.getD_none]
    exact hunmarked
  · have hself : unmarked (last (unmarked token)) = last (unmarked token) :=
      List.dropWhile_eq_self_iff.2 fun hlength hmarker =>
        not_mem_of_isCallable h (.inr hmarker) (List.getElem_mem hlength)
    have hlast : last token = last (unmarked token) := (last_eq_iff hcolon).2
      ⟨markers token ++ (scope ++ scopeMark), .inr ⟨markers token ++ scope, by rw [List.append_assoc]⟩, by
        rw [List.append_assoc, ← hunmarked, htoken]⟩
    rw [plain, hlast, hself]

end Plain

/-! ## Callable names -/

/-- The token is made of markers, scopes, perhaps a tilde, and an identifier that is not reserved. -/
def NamesMethod (token : Text) : Prop :=
  ∃ markers scope tilde ident, token = markers ++ scope ++ tilde ++ ident ∧ (∀ c ∈ markers, isMarker c = true) ∧
    (scope = [] ∨ scopeMark <:+ scope) ∧ IsTilde tilde ∧ isIdentifier ident = true ∧ ident ∉ reserved

/-- Behind the scopes stands what is left of a token without its markers. -/
theorem last_unmarked {markers scope tilde ident : Text} (hmarkers : ∀ c ∈ markers, isMarker c = true)
    (hscope : scope = [] ∨ scopeMark <:+ scope) (htilde : IsTilde tilde) (hident : isIdentifier ident = true) :
    last (unmarked (markers ++ scope ++ tilde ++ ident)) = tilde ++ ident := by
  have hcolon : ':' ∉ tilde ++ ident := by
    rcases htilde with rfl | rfl <;> simpa using colon_not_mem hident
  have hdrop : unmarked (markers ++ scope ++ tilde ++ ident) = unmarked (scope ++ (tilde ++ ident)) := by
    rw [unmarked, unmarked, List.append_assoc, List.append_assoc, List.dropWhile_append_of_pos hmarkers]
  rw [hdrop]
  rcases hscope with rfl | ⟨outer, rfl⟩
  · have hself : unmarked (tilde ++ ident) = tilde ++ ident := by
      rcases htilde with rfl | rfl
      · cases ident with
        | nil => rfl
        | cons c rest =>
          have hc : isMarker c = false := Bool.eq_false_iff.2 fun hc => marker_not_mem hident hc List.mem_cons_self
          exact List.dropWhile_cons_of_neg (by simp [hc])
      · rfl
    rw [List.nil_append, hself, last, afterScope?_eq_none hcolon, Option.getD_none]
  · -- The markers end before the colons of the scope.
    have hscope : unmarked (outer ++ scopeMark ++ (tilde ++ ident)) =
        unmarked outer ++ (scopeMark ++ (tilde ++ ident)) := by
      rw [unmarked, unmarked, List.append_assoc, List.dropWhile_append]
      split
      · rename_i hempty
        rw [List.isEmpty_iff.1 hempty]
        rfl
      · rfl
    rw [hscope, last, afterScope?_append hcolon, Option.getD_some]

/-- **A token is callable** exactly if it is made up like the name of a method. -/
theorem isCallable_iff {token : Text} : isCallable token = true ↔ NamesMethod token := by
  constructor
  · intro h
    obtain ⟨tilde, ident, hlast, htilde, hident, hreserved⟩ := exists_ident_of_isCallable h
    obtain ⟨scope, hscope, hunmarked⟩ := (last_eq_iff (not_mem_of_isCallable h (.inl rfl))).1 rfl
    refine ⟨markers token, scope, tilde, ident, ?_, fun c hc => List.mem_takeWhile_imp hc, hscope, htilde, hident,
      hreserved⟩
    rw [List.append_assoc, List.append_assoc, ← hlast, ← hunmarked]
    exact List.takeWhile_append_dropWhile.symm
  · rintro ⟨markers, scope, tilde, ident, rfl, hmarkers, hscope, htilde, hident, hreserved⟩
    simp only [isCallable, last_unmarked hmarkers hscope htilde hident, withoutTilde_append htilde hident, hident,
      Bool.true_and, Bool.not_eq_true', List.contains_eq_mem, decide_eq_false_iff_not]
    exact hreserved

end NameToken
end DocLint
