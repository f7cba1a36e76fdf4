import DocLint.IncludeGuard
import DocLint.Proofs.Text.Class

/-!
# The forms of an include guard

A guard has one of two forms: a line `#pragma once`, perhaps with a comment behind it (`IncludeGuard.IsPragma`), or
`#ifndef X` and `#define X` as the first two directives (`IncludeGuard.AsksFor`, `IncludeGuard.Defines`). The readers
find each part where it stands (`directive?_eq_some_iff`, `wordBehind?_eq_some_iff`), so that a file has no finding
exactly if it has a guard of one of these forms, and lines that are no directives do not count
(`IncludeGuard.findings_forms`).
-/

namespace DocLint
namespace IncludeGuard

open Text (isBlank isWordChar trim trimStart leadingBlanks leadingWord)

/-! ## Forms of directives -/

section Forms

/-- A word: one word character or more. -/
structure IsWord (word : Text) : Prop where
  nonempty : word ≠ []
  chars : ∀ c ∈ word, isWordChar c = true

/-- The line is `#pragma once`, with nothing behind it but blanks and a comment of one line. -/
def IsPragma (line : Text) : Prop :=
  ∃ gap gap' gap'' remark, (∀ c ∈ gap ++ gap' ++ gap'', isBlank c = true) ∧ gap' ≠ [] ∧
    line = '#' :: (gap ++ ("pragma".toList ++ (gap' ++ ("once".toList ++ (gap'' ++ remark))))) ∧
    (remark = [] ∨ ∃ comment, remark = '/' :: '/' :: comment ∧ '\n' ∉ comment)

/-- The line is `#ifndef` with the word, which goes on for as long as it can. -/
def AsksFor (word line : Text) : Prop :=
  ∃ gap gap' rest, (∀ c ∈ gap ++ gap', isBlank c = true) ∧ gap' ≠ [] ∧
    line = '#' :: (gap ++ ("ifndef".toList ++ (gap' ++ (word ++ rest)))) ∧ ∀ c ∈ rest.head?, isWordChar c = false

/-- The line is `#define` with the word and nothing behind it. -/
def Defines (word line : Text) : Prop :=
  ∃ gap gap', (∀ c ∈ gap ++ gap', isBlank c = true) ∧ gap' ≠ [] ∧
    line = '#' :: (gap ++ ("define".toList ++ (gap' ++ word)))

/-- The line is a directive. -/
def isDirective (line : Text) : Bool := "#".toList.isPrefixOf (trim line)

/-- The directives among the lines, trimmed. -/
def directives (lines : List Text) : List Text := (lines.filter isDirective).map trim

/-- The lines have an include guard of one of the two forms. -/
def HasGuard (lines : List Text) : Prop :=
  (∃ line ∈ lines, IsPragma (trim line)) ∨
    ∃ first second rest word, directives lines = first :: second :: rest ∧ IsWord word ∧ AsksFor word first ∧
      Defines word second

end Forms

/-! ## What the readers find -/

section Readers

variable {name line s word rest : Text}

/-- The text of a directive is what stands behind its name. -/
theorem directive?_eq_some_iff (hname : ∀ c ∈ name.head?, isBlank c = false) (hne : name ≠ []) :
    directive? name line = some rest ↔
      ∃ gap, (∀ c ∈ gap, isBlank c = true) ∧ line = '#' :: (gap ++ (name ++ rest)) := by
  constructor
  · intro h
    unfold directive? at h
    split at h
    · rename_i behind
      refine ⟨leadingBlanks behind, fun c => Text.isBlank_of_mem_leadingBlanks, ?_⟩
      rw [List.isPrefixOf?_eq_some_iff_append_eq.1 h, Text.leadingBlanks_append_trimStart]
    · cases h
  · rintro ⟨gap, hgap, rfl⟩
    have hhead : ∀ c ∈ (name ++ rest).head?, isBlank c = false := by
      rwa [List.head?_append_of_ne_nil _ hne]
    rw [directive?, (Text.trimStart_append hgap hhead).2]
    exact List.isPrefixOf?_eq_some_iff_append_eq.2 rfl

/-- A word begins with no blank. -/
theorem IsWord.isBlank_head? (h : IsWord word) (rest : Text) : ∀ c ∈ (word ++ rest).head?, isBlank c = false := by
  intro c hc
  rw [List.head?_append_of_ne_nil _ h.nonempty] at hc
  exact Text.isBlank_of_isWordChar (h.chars c (List.mem_of_mem_head? hc))

/-- A word behind blanks is the longest one that stands there. -/
theorem wordBehind?_eq_some_iff : wordBehind? s = some (word, rest) ↔
    ∃ gap, (∀ c ∈ gap, isBlank c = true) ∧ gap ≠ [] ∧ IsWord word ∧ s = gap ++ (word ++ rest) ∧
      ∀ c ∈ rest.head?, isWordChar c = false := by
  constructor
  · intro h
    simp only [wordBehind?] at h
    split at h
    · cases h
    · rename_i hne
      cases h
      simp only [Bool.or_eq_true, not_or, List.isEmpty_iff] at hne
      refine ⟨leadingBlanks s, fun c => Text.isBlank_of_mem_leadingBlanks, hne.1,
        ⟨hne.2, fun c hc => List.mem_takeWhile_imp hc⟩, ?_, Text.head?_dropWhile isWordChar _⟩
      rw [leadingWord, List.takeWhile_append_dropWhile, Text.leadingBlanks_append_trimStart]
  · rintro ⟨gap, hgap, hne, hword, rfl, hrest⟩
    obtain ⟨hleading, hstart⟩ := Text.trimStart_append hgap (hword.isBlank_head? rest)
    obtain ⟨htake, hdrop⟩ := Text.span_append hword.chars hrest
    have htake : leadingWord (word ++ rest) = word := htake
    simp [wordBehind?, hleading, hstart, htake, hdrop, hne, hword.nonempty]

theorem isRemark_iff : isRemark s = true ↔ ∃ gap remark, (∀ c ∈ gap, isBlank c = true) ∧ s = gap ++ remark ∧
    (remark = [] ∨ ∃ comment, remark = '/' :: '/' :: comment ∧ '\n' ∉ comment) := by
  constructor
  · intro h
    refine ⟨leadingBlanks s, trimStart s, fun c => Text.isBlank_of_mem_leadingBlanks,
      (Text.leadingBlanks_append_trimStart s).symm, ?_⟩
    unfold isRemark at h
    split at h
    · rename_i hnil
      exact .inl hnil
    · rename_i comment hcomment
      exact .inr ⟨comment, hcomment, by simpa using h⟩
    · cases h
  · rintro ⟨gap, remark, hgap, rfl, rfl | ⟨comment, rfl, hcomment⟩⟩
    · rw [isRemark, (Text.trimStart_append hgap (by simp)).2]
    · have hslash : ∀ c ∈ ('/' :: '/' :: comment).head?, isBlank c = false := by
        intro c hc
        cases hc
        rfl
      rw [isRemark, (Text.trimStart_append hgap hslash).2]
      simpa using hcomment

/-- A line is found to be `#pragma once` exactly if it has that form. -/
theorem isPragmaOnce_iff : isPragmaOnce line = true ↔ IsPragma line := by
  have hname {rest : Text} := @directive?_eq_some_iff "pragma".toList line rest (fun c hc => by cases hc; rfl) (by decide)
  constructor
  · intro h
    unfold isPragmaOnce at h
    split at h
    · cases h
    · rename_i behind hbehind
      obtain ⟨gap, hgap, rfl⟩ := hname.1 hbehind
      rw [Bool.and_eq_true] at h
      obtain ⟨hne, h⟩ := h
      split at h
      · rename_i after hafter
        obtain ⟨gap'', remark, hgap'', rfl, hremark⟩ := isRemark_iff.1 h
        refine ⟨gap, leadingBlanks behind, gap'', remark, ?_, by simpa using hne, ?_, hremark⟩
        · simp only [List.mem_append]
          rintro c ((hc | hc) | hc)
          · exact hgap c hc
          · exact Text.isBlank_of_mem_leadingBlanks hc
          · exact hgap'' c hc
        · rw [List.isPrefixOf?_eq_some_iff_append_eq.1 hafter, Text.leadingBlanks_append_trimStart]
      · cases h
  · rintro ⟨gap, gap', gap'', remark, hblank, hne, rfl, hremark⟩
    simp only [List.forall_mem_append] at hblank
    obtain ⟨⟨hgap, hgap'⟩, hgap''⟩ := hblank
    have honce : ∀ c ∈ ("once".toList ++ (gap'' ++ remark)).head?, isBlank c = false := by
      intro c hc
      cases hc
      rfl
    obtain ⟨hleading, hstart⟩ := Text.trimStart_append hgap' honce
    rw [isPragmaOnce, hname.2 ⟨gap, hgap, rfl⟩]
    simp only [hleading, hstart, List.isPrefixOf?_eq_some_iff_append_eq.2 rfl]
    simpa [hne] using isRemark_iff.2 ⟨gap'', remark, hgap'', rfl, hremark⟩

theorem ifndef?_eq_some_iff : ifndef? line = some word ↔ IsWord word ∧ AsksFor word line := by
  have hname {rest : Text} := @directive?_eq_some_iff "ifndef".toList line rest (fun c hc => by cases hc; rfl) (by decide)
  simp only [ifndef?, Option.map_eq_some_iff, Option.bind_eq_some_iff, Prod.exists]
  constructor
  · rintro ⟨_, rest, ⟨behind, hbehind, hfound⟩, rfl⟩
    obtain ⟨gap, hgap, rfl⟩ := hname.1 hbehind
    obtain ⟨gap', hgap', hne, hword, rfl, hrest⟩ := wordBehind?_eq_some_iff.1 hfound
    exact ⟨hword, gap, gap', rest, List.forall_mem_append.2 ⟨hgap, hgap'⟩, hne, rfl, hrest⟩
  · rintro ⟨hword, gap, gap', rest, hblank, hne, rfl, hrest⟩
    obtain ⟨hgap, hgap'⟩ := List.forall_mem_append.1 hblank
    exact ⟨word, rest, ⟨_, hname.2 ⟨gap, hgap, rfl⟩,
      wordBehind?_eq_some_iff.2 ⟨gap', hgap', hne, hword, rfl, hrest⟩⟩, rfl⟩

/-- A trimmed text does not end in blanks. -/
theorem eq_nil_of_trimmed {front behind : Text} (h : trim (front ++ behind) = front ++ behind)
    (hblank : ∀ c ∈ behind, isBlank c = true) : behind = [] := by
  rcases List.eq_nil_or_concat' behind with rfl | ⟨inside, c, rfl⟩
  · rfl
  · have hend := (Text.trim_eq_self_iff.1 h).2
    rw [← List.append_assoc, List.getLast?_concat] at hend
    have hlast := hend c rfl
    rw [hblank c (by simp)] at hlast
    cases hlast

/-- A trimmed line has no blanks behind the word that it defines. -/
theorem define?_eq_some_iff (hline : trim line = line) : define? line = some word ↔ IsWord word ∧ Defines word line := by
  have hname {rest : Text} := @directive?_eq_some_iff "define".toList line rest (fun c hc => by cases hc; rfl) (by decide)
  constructor
  · intro h
    unfold define? at h
    split at h
    · rename_i found after hfound
      obtain ⟨behind, hbehind, hbehind'⟩ := Option.bind_eq_some_iff.1 hfound
      obtain ⟨gap, hgap, rfl⟩ := hname.1 hbehind
      obtain ⟨gap', hgap', hne, hword, rfl, -⟩ := wordBehind?_eq_some_iff.1 hbehind'
      split at h
      · rename_i hempty
        cases h
        rw [← List.append_assoc, ← List.append_assoc, ← List.append_assoc, ← List.cons_append] at hline
        have hafter := eq_nil_of_trimmed hline (List.dropWhile_eq_nil_iff.1 (List.isEmpty_iff.1 hempty))
        exact ⟨hword, gap, gap', List.forall_mem_append.2 ⟨hgap, hgap'⟩, hne, by rw [hafter, List.append_nil]⟩
      · cases h
    · cases h
  · rintro ⟨hword, gap, gap', hblank, hne, rfl⟩
    obtain ⟨hgap, hgap'⟩ := List.forall_mem_append.1 hblank
    have hfound : (directive? "define".toList ('#' :: (gap ++ ("define".toList ++ (gap' ++ word))))).bind wordBehind? =
        some (word, []) := by
      rw [hname.2 ⟨gap, hgap, rfl⟩, Option.bind_some]
      exact wordBehind?_eq_some_iff.2 ⟨gap', hgap', hne, hword, by rw [List.append_nil], by simp⟩
    rw [define?, hfound]
    rfl

end Readers

/-! ## The check -/

section Check

variable {lines : List Text}

/-- Directives are trimmed. -/
theorem trim_of_mem_directives {line : Text} (h : line ∈ directives lines) : trim line = line := by
  obtain ⟨raw, -, rfl⟩ := List.mem_map.1 h
  exact Text.trim_trim raw

theorem filter_trim (lines : List Text) : (lines.map trim).filter ("#".toList.isPrefixOf ·) = directives lines := by
  rw [List.filter_map]
  rfl

/-- The first two directives are found to be a guard exactly if they have that form. -/
theorem isClassic_iff : isClassic (lines.map trim) = true ↔
    ∃ first second rest word, directives lines = first :: second :: rest ∧ IsWord word ∧ AsksFor word first ∧
      Defines word second := by
  have hdirective {first second : Text} {rest : List Text} (h : directives lines = first :: second :: rest) :
      trim second = second :=
    trim_of_mem_directives (h ▸ List.mem_cons_of_mem _ List.mem_cons_self)
  rw [isClassic, filter_trim]
  constructor
  · intro h
    split at h
    · rename_i first second rest hlines
      split at h
      · rename_i asked defined hasked hdefined
        rw [← beq_iff_eq.1 h] at hdefined
        obtain ⟨hword, hasks⟩ := ifndef?_eq_some_iff.1 hasked
        have hsecond : trim second = second := hdirective hlines
        exact ⟨first, second, rest, asked, hlines, hword, hasks, ((define?_eq_some_iff hsecond).1 hdefined).2⟩
      · cases h
    · cases h
  · rintro ⟨first, second, rest, word, hlines, hword, hasks, hdefines⟩
    have hdefined := (define?_eq_some_iff (hdirective hlines)).2 ⟨hword, hdefines⟩
    rw [hlines]
    simp [ifndef?_eq_some_iff.2 ⟨hword, hasks⟩, hdefined]

theorem isGuarded_iff : isGuarded lines = true ↔ HasGuard lines := by
  simp only [isGuarded, Bool.or_eq_true, isClassic_iff, List.any_map, List.any_eq_true, Function.comp_apply,
    isPragmaOnce_iff, HasGuard]

/-- `#pragma once` is a directive. -/
theorem isDirective_of_isPragma {line : Text} (h : IsPragma (trim line)) : isDirective line = true := by
  obtain ⟨gap, gap', gap'', remark, -, -, hline, -⟩ := h
  rw [isDirective, hline]
  rfl

/-- The guard is found among the directives. -/
theorem hasGuard_filter : HasGuard (lines.filter isDirective) ↔ HasGuard lines := by
  have hdirectives : directives (lines.filter isDirective) = directives lines := by
    simp only [directives, List.filter_filter, Bool.and_self]
  refine or_congr (exists_congr fun line => ?_) (by rw [hdirectives])
  rw [List.mem_filter, and_assoc]
  exact and_congr_right fun _ => and_iff_right_of_imp isDirective_of_isPragma

/-- **A header file has no finding exactly if it has a guard of one of the two forms:** a line `#pragma once`, or
`#ifndef` and `#define` with the same word as its first two directives. Otherwise it has one finding, at its first line.
Lines that are no directives do not count. -/
theorem findings_forms (path : Path) (lines : List Text) :
    (findings path lines = [] ↔ HasGuard lines) ∧
    (¬ HasGuard lines → findings path lines = [⟨path, 1, Problem.noGuard.message⟩]) ∧
    ∀ lines', lines'.filter isDirective = lines.filter isDirective → findings path lines' = findings path lines := by
  refine ⟨?_, fun hnone => ?_, fun lines' hsame => ?_⟩
  · rw [findings, ← isGuarded_iff]
    simp
  · rw [findings, if_neg (isGuarded_iff.not.2 hnone)]
    rfl
  · have hguard : isGuarded lines' = isGuarded lines := by
      rw [Bool.eq_iff_iff, isGuarded_iff, isGuarded_iff, ← hasGuard_filter, hsame, hasGuard_filter]
    rw [findings, findings, hguard]

/-- A macro before the guard hides it, a longer word is another one, and a comment may follow `#pragma once`. -/
example :
    isGuarded ["#ifndef A_H // guard".toList, "#define A_H".toList] = true ∧
    isGuarded ["#include <a>".toList, "#ifndef A_H".toList, "#define A_H".toList] = false ∧
    isGuarded ["#ifndef A_H".toList, "#define A_HPP".toList] = false ∧
    isGuarded ["int x;".toList, " #  pragma once// here".toList] = true := by
  decide +kernel

end Check
end IncludeGuard
end DocLint
