import DocLint.Proofs.Parameter.Spelled

/-!
# Parameters with array brackets and default values

A declarator is a parameter as a declaration may spell it in full (`Parameter.Declarator`): array brackets can stand
behind the name, and a default value behind those. A list of them is cut between them, since each closes the brackets
that it opens (`Parameter.parts_commaSeparated`), and each part is read as the parameter that it declares
(`Parameter.ofText?_declarator`). So a declaration is read as it was written (`Parameter.ofSignature_declarators`).
-/

namespace DocLint
namespace Parameter

open Text (isBlank trim squeeze)

/-! ## Declarators -/

section Declarators

/-- A parameter as it is declared in full. -/
structure Declarator where
  parameter : Parameter
  /-- What stands in the array brackets behind the name. -/
  dimensions : List Text
  default? : Option Text
  deriving DecidableEq, Repr

namespace Declarator

/-- The array brackets behind the name. -/
def brackets (d : Declarator) : Text := d.dimensions.flatMap bracketed

/-- The equals sign and the default value. -/
def default (d : Declarator) : Text :=
  match d.default? with
  | some value => ' ' :: '=' :: ' ' :: value
  | none => []

/-- The declarator as it stands in a list. -/
def spelling (d : Declarator) : Text := d.parameter.spelling ++ d.brackets ++ d.default

/-- The parameter that is declared: brackets behind the name belong to the type, and the default value to nothing. -/
def declared (d : Declarator) : Parameter := { d.parameter with type := d.parameter.type ++ squeeze d.brackets }

/-- The parameter can be spelled, its array brackets have neither brackets nor equals signs in them, and the default value
closes the brackets that it opens, with no comma outside of them. -/
structure IsSpelled (d : Declarator) : Prop where
  parameter : d.parameter.IsSpelled
  dimensions : ∀ x ∈ d.dimensions, ∀ c ∈ x, isOpening c = false ∧ isClosing c = false ∧ c ≠ '='
  default : ∀ value ∈ d.default?, IsWhole value

instance (d : Declarator) : Decidable d.IsSpelled :=
  have hdimensions : (∀ x ∈ d.dimensions, (x.all fun c => !isOpening c && !isClosing c && c != '=') = true) ↔
      ∀ x ∈ d.dimensions, ∀ c ∈ x, isOpening c = false ∧ isClosing c = false ∧ c ≠ '=' := by
    simp only [List.all_eq_true, Bool.and_eq_true, Bool.not_eq_true', bne_iff_ne, and_assoc]
  decidable_of_iff
    (d.parameter.IsSpelled ∧ (∀ x ∈ d.dimensions, (x.all fun c => !isOpening c && !isClosing c && c != '=') = true) ∧
      ∀ value ∈ d.default?, IsWhole value)
    ⟨fun ⟨hparameter, hall, hdefault⟩ => ⟨hparameter, hdimensions.1 hall, hdefault⟩,
      fun h => ⟨h.parameter, hdimensions.2 h.dimensions, h.default⟩⟩

variable {d : Declarator}

/-- A declarator is one part of a list. -/
theorem IsSpelled.isWhole_spelling (h : d.IsSpelled) : IsWhole d.spelling := by
  have hbrackets : IsWhole d.brackets := IsWhole.flatMap fun x hx =>
    isWhole_bracketed fun c hc => ⟨(h.dimensions x hx c hc).1, (h.dimensions x hx c hc).2.1⟩
  have hdefault : IsWhole d.default := by
    unfold Declarator.default
    split
    · rename_i value hvalue
      have hsign : IsWhole " = ".toList := by decide
      exact hsign.append (h.default value hvalue)
    · exact isWhole_nil
  exact (h.parameter.isWhole_spelling.append hbrackets).append hdefault

theorem isDimensions_bracketed {x : Text} (hx : ']' ∉ x) (rest : Text) :
    isDimensions false (bracketed x ++ rest) = isDimensions false rest := by
  have hinside : ∀ {x : Text}, ']' ∉ x → isDimensions true (x ++ ']' :: rest) = isDimensions false rest := by
    intro x hx
    induction x with
    | nil => rfl
    | cons c x ih =>
      rw [List.mem_cons, not_or] at hx
      have hc : (c != ']') = true := bne_iff_ne.2 (Ne.symm hx.1)
      rw [List.cons_append, isDimensions, hc, ih hx.2]
  have happend : bracketed x ++ rest = '[' :: (x ++ ']' :: rest) := by simp [bracketed]
  rw [happend, isDimensions, if_pos rfl, hinside hx]

/-- The brackets of a declarator are a row of array brackets. -/
theorem IsSpelled.isArray_brackets (h : d.IsSpelled) : IsArray d.brackets := by
  have hrow : ∀ {xs : List Text}, (∀ x ∈ xs, ']' ∉ x) → IsArray (xs.flatMap bracketed) := by
    intro xs hxs
    induction xs with
    | nil => exact isArray_nil
    | cons x xs ih =>
      obtain ⟨hx, hxs⟩ := List.forall_mem_cons.1 hxs
      have ih := ih hxs
      rw [List.flatMap_cons]
      refine ⟨fun c hc => ?_, fun c hc => ?_, ?_⟩
      · cases hc
        rfl
      · rw [List.getLast?_append, Option.mem_def, Option.or_eq_some_iff] at hc
        refine hc.elim (ih.ends c) fun hc => ?_
        have hend : (bracketed x).getLast? = some ']' := by rw [bracketed, ← List.cons_append, List.getLast?_concat]
        rw [hend] at hc
        cases hc.2
        rfl
      · rw [isDimensions_bracketed hx, ih.row]
  exact hrow fun x hx hmem => absurd (h.dimensions x hx ']' hmem).2.1 (by decide)

end Declarator

/-- A default value is no part of what is read. -/
theorem ofText?_default {s : Text} (h : '=' ∉ s) (value : Text) : ofText? (s ++ ' ' :: '=' :: value) = ofText? s := by
  have hself : Text.before '=' s = s :=
    List.takeWhile_eq_self_iff.2 fun c hc => bne_iff_ne.2 fun heq => h (heq ▸ hc)
  have hbefore : Text.before '=' (s ++ ' ' :: '=' :: value) = s ++ [' '] := by
    have hspace : '=' ∉ s ++ [' '] := by simpa using h
    rw [← Text.before_append_cons hspace value, List.append_assoc, List.singleton_append]
  rw [ofText?, ofText?, hbefore, hself, Text.trim_append_of_blank (by simp [isBlank])]

/-- Before the default value stands no equals sign. -/
theorem Declarator.IsSpelled.equal_not_mem {d : Declarator} (h : d.IsSpelled) :
    '=' ∉ d.brackets ∧ '=' ∉ d.parameter.spelling ++ d.brackets := by
  have hbrackets : '=' ∉ d.brackets := fun hmem => by
    obtain ⟨x, hx, hmem⟩ := List.mem_flatMap.1 hmem
    rw [bracketed, List.mem_cons, List.mem_append, List.mem_singleton] at hmem
    rcases hmem with hmem | hmem | hmem
    · cases hmem
    · exact (h.dimensions x hx _ hmem).2.2 rfl
    · cases hmem
  have hname : '=' ∉ d.parameter.name := not_mem_of_isName h.parameter.named (by decide)
  exact ⟨hbrackets, by simp [Parameter.spelling, h.parameter.plain, hname, hbrackets]⟩

/-- Without its default value, a declarator is trimmed and read as the parameter that it declares. -/
theorem Declarator.IsSpelled.ofText?_brackets {d : Declarator} (h : d.IsSpelled) :
    trim (d.parameter.spelling ++ d.brackets) = d.parameter.spelling ++ d.brackets ∧
      ofText? (d.parameter.spelling ++ d.brackets) = some d.declared := by
  obtain ⟨last, hlast, hends⟩ := h.parameter.exists_last
  have harray := h.isArray_brackets
  have htext : d.parameter.spelling ++ d.brackets = d.parameter.type ++ ' ' :: (d.parameter.name ++ d.brackets) := by
    rw [Parameter.spelling, List.append_assoc, List.cons_append]
  rw [htext]
  refine ⟨trim_declared h.parameter.trimmed hlast h.parameter.named harray, ?_⟩
  rw [ofText?_declared h.parameter.trimmed hlast hends (closesArrays_of_closed h.parameter.closed) h.parameter.plain
    h.parameter.oneLine h.parameter.named harray h.equal_not_mem.1]
  rfl

/-- **A declarator is read as the parameter that it declares.** -/
theorem ofText?_declarator {d : Declarator} (h : d.IsSpelled) :
    trim d.spelling ≠ [] ∧ ofText? (trim d.spelling) = some d.declared := by
  obtain ⟨htrim, hread⟩ := h.ofText?_brackets
  have hne : d.parameter.spelling ++ d.brackets ≠ [] := by simp [Parameter.spelling]
  rw [Declarator.spelling, Declarator.default]
  split
  · rename_i value _
    -- Trimming goes no further than the equals sign.
    have hstart : Text.trimStart (d.parameter.spelling ++ d.brackets ++ [' ']) = d.parameter.spelling ++ d.brackets ++ [' '] := by
      refine Text.trimStart_eq_self_iff.2 fun c hc => (Text.trim_eq_self_iff.1 htrim).1 c ?_
      rwa [List.head?_append_of_ne_nil _ hne] at hc
    have hvalue : trim (d.parameter.spelling ++ d.brackets ++ ' ' :: '=' :: ' ' :: value) =
        d.parameter.spelling ++ d.brackets ++ ' ' :: '=' :: Text.trimEnd (' ' :: value) := by
      rw [← List.singleton_append, ← List.append_assoc, Text.trim_append rfl, hstart, List.append_assoc,
        List.singleton_append]
    rw [hvalue]
    exact ⟨by simp, (ofText?_default h.equal_not_mem.2 _).trans hread⟩
  · rw [List.append_nil, htrim]
    exact ⟨hne, hread⟩

/-- **Reading undoes writing.** Whatever stands around the list of a declaration, its parameters are those that were
written into it. -/
theorem ofSignature_declarators {ds : List Declarator} (h : ∀ d ∈ ds, d.IsSpelled) {front : Text} (hfront : '(' ∉ front)
    (back : Text) :
    ofSignature (front ++ '(' :: (commaSeparated (ds.map Declarator.spelling) ++ ')' :: back)) =
      ds.map Declarator.declared := by
  have hclosed : readBrackets [] (commaSeparated (ds.map Declarator.spelling)) = some [] :=
    readBrackets_commaSeparated (List.forall_mem_map.2 fun d hd => (h d hd).isWhole_spelling)
  have hparts : parts (commaSeparated (ds.map Declarator.spelling)) = ds.map fun d => trim d.spelling := by
    rw [parts_commaSeparated (List.forall_mem_map.2 fun d hd => ⟨(h d hd).isWhole_spelling, (ofText?_declarator (h d hd)).1⟩),
      List.map_map]
    rfl
  have hlist : list? (front ++ '(' :: (commaSeparated (ds.map Declarator.spelling) ++ ')' :: back)) =
      some (commaSeparated (ds.map Declarator.spelling)) := by
    have huntil := untilClose_append hclosed (')' :: back)
    rw [list?_append hfront]
    simpa [untilClose] using huntil
  rw [ofSignature, hlist]
  show (parts _).filterMap ofText? = _
  rw [hparts, List.filterMap_map, ← List.filterMap_eq_map]
  refine List.filterMap_congr fun d hd => ?_
  rw [Function.comp_apply, Function.comp_apply, (ofText?_declarator (h d hd)).2]

/-- A callback in nested brackets with a default value, and a table with brackets behind its name. -/
theorem ofSignature_declarators_callback :
    let ds : List Declarator := [⟨⟨"map<f<void(int, T)>, int[2]> &".toList, "g".toList⟩, [], some "\x7bh(1, 2)\x7d".toList⟩,
      ⟨⟨"char *".toList, "t".toList⟩, ["N, 2 ".toList, [] ], none⟩]
    (∀ d ∈ ds, d.IsSpelled) ∧
      ofSignature "void f(map<f<void(int, T)>, int[2]> & g = \x7bh(1, 2)\x7d, char * t[N, 2 ][]) const;".toList =
        [⟨"map<f<void(int, T)>, int[2]> &".toList, "g".toList⟩, ⟨"char *[N,2][]".toList, "t".toList⟩] := by
  intro ds
  have hspelled : ∀ d ∈ ds, d.IsSpelled := by decide +kernel
  have hfront : '(' ∉ "void f".toList := by decide
  have htext : "void f".toList ++ '(' :: (commaSeparated (ds.map Declarator.spelling) ++ ')' :: " const;".toList) =
      "void f(map<f<void(int, T)>, int[2]> & g = \x7bh(1, 2)\x7d, char * t[N, 2 ][]) const;".toList := by decide +kernel
  have hdeclared : ds.map Declarator.declared =
      [⟨"map<f<void(int, T)>, int[2]> &".toList, "g".toList⟩, ⟨"char *[N,2][]".toList, "t".toList⟩] := by decide +kernel
  have hread := ofSignature_declarators hspelled hfront " const;".toList
  rw [htext, hdeclared] at hread
  exact ⟨hspelled, hread⟩

end Declarators
end Parameter
end DocLint
