import Mathlib.Data.List.Nodup
import DocLint.FileTree.Below
import DocLint.Proofs.FileTree.Contents

/-!
# The files below a directory

The files are listed exactly when the root is a directory (`filesUnder_eq_error`, `exists_filesUnder`). Each path of the
list has a role and leads to a file, and no path is there twice: the names that lead from a directory to its entries
differ, and so do the paths that they are joined to (`Path.joinAll_inj`).
-/

namespace DocLint

/-! ## Joined paths -/

namespace Path

/-- The path up to where a name is joined to it. -/
def stub (p : Path) : Text := if p.text = [] ∨ p.text.getLast? = some '/' then p.text else p.text ++ ['/']

theorem join_text (p : Path) (name : Text) : (p.join name).text = p.stub ++ name := by
  unfold join stub
  split
  · rfl
  · simp

theorem isName_iff {name : Text} : Place.isName name = true ↔ leads name = true ∧ name ≠ above ∧ '/' ∉ name ∧
    '\x00' ∉ name ∧ name.byteCount ≤ Place.maxNameBytes := by
  simp only [Place.isName, Bool.and_eq_true, bne_iff_ne, Bool.not_eq_true', List.contains_eq_mem,
    decide_eq_false_iff_not, decide_eq_true_eq, and_assoc]

/-- A name is something, and a slash does not occur in it. -/
theorem of_isName {name : Text} (h : Place.isName name = true) : name ≠ [] ∧ '/' ∉ name := by
  obtain ⟨hleads, -, hslash, -⟩ := isName_iff.1 h
  exact ⟨fun hnil => (by rw [hnil] at hleads; cases hleads), hslash⟩

/-- Behind a name a slash is needed. -/
theorem stub_join (p : Path) {name : Text} (h : Place.isName name = true) :
    (p.join name).stub = p.stub ++ name ++ ['/'] := by
  obtain ⟨hne, hslash⟩ := of_isName h
  have hlast : (p.stub ++ name).getLast? ≠ some '/' := by
    rw [List.getLast?_append_of_ne_nil _ hne]
    exact fun hlast => hslash (List.mem_of_getLast? hlast)
  rw [stub, join_text, if_neg]
  rintro (hnil | hlast')
  · exact hne (List.append_eq_nil_iff.1 hnil).2
  · exact hlast hlast'

theorem joinAll_text : ∀ {p : Path} {names : List Text}, names ≠ [] → (∀ name ∈ names, Place.isName name = true) →
    (p.joinAll names).text = p.stub ++ List.intercalate ['/'] names
  | _, [], h, _ => absurd rfl h
  | p, [name], _, _ => by
    rw [List.intercalate_singleton]
    exact join_text p name
  | p, name :: name' :: names, _, h => by
    have hname := h name List.mem_cons_self
    have ih := @joinAll_text (p.join name) (name' :: names) (List.cons_ne_nil _ _)
      fun n hn => h n (List.mem_cons_of_mem _ hn)
    rw [stub_join p hname] at ih
    rw [List.intercalate_cons_cons]
    simpa [joinAll] using ih

/-- **Different names lead to different paths.** -/
theorem joinAll_inj {p : Path} {names names' : List Text} (hne : names ≠ []) (hne' : names' ≠ [])
    (h : ∀ name ∈ names, Place.isName name = true) (h' : ∀ name ∈ names', Place.isName name = true)
    (heq : p.joinAll names = p.joinAll names') : names = names' := by
  have htext := congrArg Path.text heq
  rw [joinAll_text hne h, joinAll_text hne' h'] at htext
  have hjoined := List.append_cancel_left htext
  calc names
    _ = (List.intercalate ['/'] names).splitOn '/' :=
      (List.splitOn_intercalate '/' (fun n hn => (of_isName (h n hn)).2) hne).symm
    _ = (List.intercalate ['/'] names').splitOn '/' := congrArg (List.splitOn '/') hjoined
    _ = names' := List.splitOn_intercalate '/' (fun n hn => (of_isName (h' n hn)).2) hne'

end Path

namespace FileTree

variable {t : FileTree} {root : Path}

/-! ## The list of files -/

/-- The names of `below` lead to entries of the tree. -/
theorem mem_below_iff {place : Place} {names : List Text} :
    names ∈ t.below place ↔ ∃ entry, t.get? (place ++ names) = some entry := by
  rw [below, List.mem_filterMap]
  constructor
  · rintro ⟨⟨other, entry⟩, hmem, hprefix⟩
    obtain rfl := List.isPrefixOf?_eq_some_iff_append_eq.1 hprefix
    exact ⟨entry, get?_of_mem hmem⟩
  · rintro ⟨entry, hget⟩
    exact ⟨(place ++ names, entry), mem_of_get? hget, List.isPrefixOf?_eq_some_iff_append_eq.2 rfl⟩

theorem isName_of_mem_below {place : Place} {names : List Text} (h : names ∈ t.below place) :
    ∀ name ∈ names, Place.isName name = true := by
  obtain ⟨entry, hget⟩ := mem_below_iff.1 h
  exact fun name hname => t.named _ (mem_of_get? hget) name (List.mem_append_right _ hname)

theorem nodup_below (t : FileTree) (place : Place) : (t.below place).Nodup := by
  have hplaces : (t.entries.map Prod.fst).Nodup := by
    rw [List.Nodup, List.pairwise_map]
    refine t.sorted.imp fun hlt heq => ?_
    rw [heq] at hlt
    exact List.lt_irrefl _ hlt
  have hbelow : t.below place = (t.entries.map Prod.fst).filterMap place.isPrefixOf? := by
    rw [below, List.filterMap_map]
    rfl
  rw [hbelow]
  refine hplaces.filterMap fun a a' names ha ha' => ?_
  rw [← List.isPrefixOf?_eq_some_iff_append_eq.1 ha, ← List.isPrefixOf?_eq_some_iff_append_eq.1 ha']

theorem isDirectory_iff : t.isDirectory root = true ↔ ∃ place, t.goal .reach root = .ok (.entry place .directory) := by
  unfold isDirectory
  cases t.goal .reach root with
  | error cause => simp
  | ok goal =>
    cases goal with
    | entry place entry => cases entry <;> simp
    | vacant place => simp

/-- **Files are listed below a directory only.** -/
theorem filesUnder_eq_error (h : t.isDirectory root = false) : t.filesUnder root = .error ⟨root⟩ := by
  have hno : ¬ ∃ place, t.goal .reach root = .ok (.entry place .directory) := by
    rw [← isDirectory_iff, h]
    exact Bool.false_ne_true
  unfold filesUnder
  cases hgoal : t.goal .reach root with
  | error cause => rfl
  | ok goal =>
    cases goal with
    | entry place entry =>
      cases entry with
      | directory => exact absurd ⟨place, hgoal⟩ hno
      | file bytes => rfl
      | link target => rfl
    | vacant place => rfl

/-- **What is listed** are different paths, each with a role, that lead to files. -/
theorem exists_filesUnder (h : t.isDirectory root = true) : ∃ files, t.filesUnder root = .ok files ∧ files.Nodup ∧
    ∀ path ∈ files, (∃ place, t.target? path = some place) ∧ (FileRole.ofPath? path).isSome = true := by
  obtain ⟨place, hgoal⟩ := isDirectory_iff.1 h
  refine ⟨((t.below place).map root.joinAll).filter t.isRecognized, by rw [filesUnder, hgoal], ?_, ?_⟩
  · rw [List.filter_map]
    refine List.Nodup.map_on ?_ ((t.nodup_below place).filter _)
    -- The root itself is a directory, so that names lead to each of the paths that are left.
    have hne : ∀ names ∈ (t.below place).filter (t.isRecognized ∘ root.joinAll), names ≠ [] := by
      rintro _ hmem rfl
      have hfile := (Bool.and_eq_true_iff.1 (List.mem_filter.1 hmem).2).1
      have hroot : t.isFile root = false := by rw [isFile, hgoal]
      exact absurd (hroot.symm.trans hfile) Bool.false_ne_true
    intro names hmem names' hmem' heq
    exact Path.joinAll_inj (hne names hmem) (hne names' hmem')
      (isName_of_mem_below (List.mem_filter.1 hmem).1) (isName_of_mem_below (List.mem_filter.1 hmem').1) heq
  · intro path hpath
    have hrecognized := Bool.and_eq_true_iff.1 (List.mem_filter.1 hpath).2
    exact ⟨isFile_iff.1 hrecognized.1, hrecognized.2⟩

/-- A directory with a file, a link to a file elsewhere, a link to nothing and a link to another directory. -/
def linkedTree : FileTree where
  entries := [([], .directory), (["inc".toList], .directory),
    (["inc".toList, "Shared.hpp".toList], .file (Text.encode "/**\n * File: Shared.hpp\n */\n#pragma once\n".toList)),
    (["work".toList], .directory), (["work".toList, "src".toList], .directory),
    (["work".toList, "src".toList, "Shared.hpp".toList], .link ⟨"/inc/Shared.hpp".toList⟩),
    (["work".toList, "src".toList, "a.cpp".toList], .file (Text.encode "/** Author: Jane */\n".toList)),
    (["work".toList, "src".toList, "b.cpp".toList], .link ⟨"../gone.cpp".toList⟩),
    (["work".toList, "src".toList, "more".toList], .link ⟨"../../inc".toList⟩)]
  workDir := ["work".toList]
  sorted := by decide
  top := List.mem_cons_self
  workDir_mem := EntryList.mem_of_listsDirectory (by decide)
  closed := EntryList.closed_of_all (by decide)
  named := by decide

example : linkedTree.filesUnder ⟨"/work/src".toList⟩ =
    .ok [⟨"/work/src/Shared.hpp".toList⟩, ⟨"/work/src/a.cpp".toList⟩] := by decide +kernel

end FileTree
end DocLint
