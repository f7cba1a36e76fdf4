import DocLint.Run
import DocLint.Proofs.FileTree.Below
import DocLint.Proofs.Run.Rewriting

/-!
# Dry runs and real runs

A dry run finds the outcomes of all files in the tree as it is (`lintAll_of_dryRun`). A real run replaces contents on
its way, but no content before its file has been read. Files at different places do not meet (`lintAll_apart`), so that
the dry run tells beforehand what the real run finds and does (`lint_foretold`). Only a file that is too far from the
top can keep its content, when the path to it ends in a link; the new content is put in place of the link then
(`lint_link_to_far_file`).
-/

namespace DocLint

/-! ## One file -/

/-- The outcome with its edits made. -/
def FileOutcome.made (outcome : FileOutcome) : FileOutcome := { outcome with written := !outcome.edits.isEmpty }

theorem FileOutcome.made_eq_self {outcome : FileOutcome} (hedits : outcome.edits = [])
    (hwritten : outcome.written = false) : outcome.made = outcome := by
  rw [made, hedits, List.isEmpty_nil, Bool.not_true, ← hedits, ← hwritten]

namespace FilePlan

variable (path : Path) (role : FileRole) (options : LintOptions) (read : Except AccessError Text)

theorem newContent_ofRead : (ofRead path role options read).newContent =
    if options.dryRun then none else HeaderReview.newText? path read := by
  cases read with
  | error cause => cases options.dryRun <;> rfl
  | ok content =>
    simp only [ofRead, ContentReview.ofContent, HeaderReview.newText?, List.isEmpty_iff, Bool.or_eq_true]
    cases options.dryRun <;> simp

theorem path_ofRead : (ofRead path role options read).outcome.path = path := by cases read <;> rfl

theorem written_ofRead : (ofRead path role options read).outcome.written = false := by cases read <;> rfl

/-- There are edits exactly when there is a text to write. -/
theorem edits_ofRead : (ofRead path role options read).outcome.edits = [] ↔ HeaderReview.newText? path read = none := by
  cases read with
  | error cause => exact iff_of_true rfl rfl
  | ok content =>
    simp only [ofRead, FileOutcome.ofReview, ContentReview.ofContent, HeaderReview.newText?]
    split <;> simp [*]

/-- Whether the run is dry does not show in the outcome before anything is written. -/
theorem outcome_ofRead_congr (dryRun : Bool) :
    (ofRead path role { options with dryRun := dryRun } read).outcome = (ofRead path role options read).outcome := by
  cases read <;> rfl

end FilePlan

namespace FileTree

variable {t t' : FileTree} {path : Path} {role : FileRole} {options : LintOptions}

theorem lintFile_of_dryRun (h : options.dryRun = true) :
    t.lintFile path role options = ((FilePlan.ofRead path role options (t.readText path)).outcome, t) := by
  simp only [lintFile, FilePlan.newContent_ofRead, h, if_true]

/-- **The real check of a file** makes its edits and writes its new text if there is one. -/
theorem lintFile_of_target? {file : Place} (hfile : t.target? path = some file) (h : options.dryRun = false) :
    ∃ t', t.lintFile path role options = ((FilePlan.ofRead path role options (t.readText path)).outcome.made, t') ∧
      t.Rewritten t' [path] ∧ ∃ place, t'.target? path = some place ∧ t.LeadsTo file place := by
  have hedits := FilePlan.edits_ofRead path role options (t.readText path)
  have hwritten := FilePlan.written_ofRead path role options (t.readText path)
  simp only [lintFile, FilePlan.newContent_ofRead, h, Bool.false_eq_true, if_false]
  cases hnew : HeaderReview.newText? path (t.readText path) with
  | none =>
    obtain ⟨bytes, hbytes, -⟩ := exists_read_of_target? hfile
    exact ⟨t, by rw [FileOutcome.made_eq_self (hedits.2 hnew) hwritten], .of_none hnew, file, hfile, .self hbytes⟩
  | some content =>
    obtain ⟨t', place, hreplace, hwrites⟩ := replaceContent_of_target? hfile content
    refine ⟨t', ?_, .of_writes hfile hnew hwrites, place, hwrites.target?, hwrites.leadsTo⟩
    have hne : (FilePlan.ofRead path role options (t.readText path)).outcome.edits.isEmpty = false := by
      rw [List.isEmpty_eq_false_iff]
      exact fun hnil => absurd (hnew.symm.trans (hedits.1 hnil)) (Option.some_ne_none content)
    simp only [hreplace, FileOutcome.settled, FileOutcome.made, hne, Bool.not_false]

/-! ## All files -/

/-- The outcomes of files in the tree as it is, before anything is written. -/
def outcomes (options : LintOptions) (t : FileTree) (paths : List Path) : List FileOutcome :=
  paths.filterMap fun path => (FileRole.ofPath? path).map fun role =>
    (FilePlan.ofRead path role options (t.readText path)).outcome

/-- **A dry run** finds the outcomes and leaves the tree alone. -/
theorem lintAll_of_dryRun (h : options.dryRun = true) : ∀ paths : List Path,
    lintAll options t paths = (t.outcomes options paths, t)
  | [] => rfl
  | path :: rest => by
    have ih := lintAll_of_dryRun h rest
    rw [lintAll, outcomes, List.filterMap_cons]
    cases FileRole.ofPath? path with
    | none => exact ih
    | some role =>
      simp only [lintFile_of_dryRun h, ih, Option.map_some]
      rfl

theorem outcomes_congr {paths : List Path} (h : ∀ path ∈ paths, t'.readText path = t.readText path) :
    t'.outcomes options paths = t.outcomes options paths :=
  List.filterMap_congr fun path hpath => by rw [h path hpath]

/-- Every path gets its outcome, whether its file can be read and written or not. -/
theorem path_lintFile (t : FileTree) (path : Path) (role : FileRole) (options : LintOptions) :
    (t.lintFile path role options).1.path = path := by
  have hpath := FilePlan.path_ofRead path role options (t.readText path)
  simp only [lintFile]
  split
  · exact hpath
  · split
    · exact hpath
    · exact hpath

theorem map_path_lintAll {paths : List Path} (h : ∀ path ∈ paths, (FileRole.ofPath? path).isSome = true)
    (t : FileTree) : (lintAll options t paths).1.map (·.path) = paths := by
  induction paths generalizing t with
  | nil => rfl
  | cons path rest ih =>
    obtain ⟨role, hrole⟩ := Option.isSome_iff_exists.1 (h path List.mem_cons_self)
    rw [lintAll, hrole]
    exact List.cons_eq_cons.2 ⟨path_lintFile t path role options, ih (fun p hp => h p (List.mem_cons_of_mem _ hp)) _⟩

theorem tree_lintFile_congr {options' : LintOptions} (h : options.dryRun = options'.dryRun) (t : FileTree) (path : Path)
    (role : FileRole) : (t.lintFile path role options).2 = (t.lintFile path role options').2 := by
  simp only [lintFile, FilePlan.newContent_ofRead, h]
  split
  · rfl
  · split <;> rfl

/-- What a run does to the tree depends on the header check alone. -/
theorem tree_lintAll_congr {options' : LintOptions} (h : options.dryRun = options'.dryRun) (paths : List Path)
    (t : FileTree) : (lintAll options t paths).2 = (lintAll options' t paths).2 := by
  induction paths generalizing t with
  | nil => rfl
  | cons path rest ih =>
    rw [lintAll, lintAll]
    cases FileRole.ofPath? path with
    | none => exact ih t
    | some role =>
      have hfile := tree_lintFile_congr h t path role
      dsimp only
      rw [hfile]
      exact ih _

/-- **A real run** over files at different places finds the outcomes in the tree as it was. -/
theorem lintAll_apart (h : options.dryRun = false) : ∀ {paths : List Path} {t : FileTree}, t.Apart paths →
    (∀ path ∈ paths, (FileRole.ofPath? path).isSome = true) →
    ∃ after, lintAll options t paths = ((t.outcomes options paths).map FileOutcome.made, after) ∧
      t.Rewritten after paths
  | [], t, _, _ => ⟨t, rfl, .nil t⟩
  | path :: rest, t, hapart, hroles => by
    obtain ⟨file, hfile⟩ := hapart.file path List.mem_cons_self
    obtain ⟨role, hrole⟩ := Option.isSome_iff_exists.1 (hroles path List.mem_cons_self)
    obtain ⟨t', hlint, hstep, place, hplace, hlead⟩ := @lintFile_of_target? t path role options file hfile h
    have hkeeps := hapart.keeps hstep
    obtain ⟨after, hall, hrest⟩ :=
      lintAll_apart h (hapart.of_keeps hkeeps) fun p hp => hroles p (List.mem_cons_of_mem _ hp)
    refine ⟨after, ?_, .cons hapart hfile hlead hplace hstep hrest⟩
    rw [lintAll, hrole]
    simp only [hlint, hall]
    rw [outcomes_congr hkeeps.readText_eq, outcomes, outcomes, List.filterMap_cons, hrole]
    rfl

/-- What the dry run of some files tells of a real run that leaves the tree `after`. -/
structure Foretold (t after : FileTree) (files : List Path) (dry real : List FileOutcome) : Prop where
  /-- The outcomes are the same but for the edits that have been made. -/
  outcomes : real = dry.map FileOutcome.made
  /-- Exactly those have been made that there are. -/
  written : ∀ outcome ∈ real, outcome.written = true ↔ outcome.edits ≠ []
  /-- Exactly the paths to files whose edits have been made lead to other bytes. -/
  bytes : ∀ outcome ∈ real, outcome.written = true ↔ after.read outcome.path ≠ t.read outcome.path
  /-- The paths to files that can be read lead to their edited contents. -/
  texts : ∀ path ∈ files, ∀ content, t.readText path = .ok content →
    after.readText path = .ok ((HeaderReview.ofContent path content).apply content)
  /-- All entries are as before but for the places where new texts are put. -/
  others : ∀ place, (∀ path ∈ files, t.destination? path = some place →
    HeaderReview.newText? path (t.readText path) = none) → after.get? place = t.get? place
  /-- All entries are as before but for the files that can be read, exactly if new texts are put at the files. -/
  others_iff : (∀ place, (∀ path ∈ files, t.target? path = some place → ∀ content, t.readText path ≠ .ok content) →
      after.get? place = t.get? place) ↔
    ∀ path ∈ files, HeaderReview.newText? path (t.readText path) ≠ none → t.destination? path = t.target? path
  /-- They are put at the files that are not too far from the top. -/
  atFile : ∀ path ∈ files, ¬ t.TooFar path → t.destination? path = t.target? path

/-- What a dry run tells of a real run over files at different places. -/
theorem Apart.foretold {files : List Path} (hapart : t.Apart files)
    (hroles : ∀ path ∈ files, (FileRole.ofPath? path).isSome = true) (h : options.dryRun = false) :
    Foretold t (lintAll options t files).2 files (t.outcomes options files) (lintAll options t files).1 := by
  obtain ⟨after, hall, hrewritten⟩ := lintAll_apart h hapart hroles
  rw [hall]
  refine ⟨rfl, fun outcome houtcome => ?_, fun outcome houtcome => ?_,
    fun path hpath content htext => hrewritten.readText_eq hpath htext, hrewritten.others,
    hrewritten.others_iff hapart.file, fun path hpath hfar => ?_⟩
  · obtain ⟨before, -, rfl⟩ := List.mem_map.1 houtcome
    simp [FileOutcome.made]
  · obtain ⟨before, hbefore, rfl⟩ := List.mem_map.1 houtcome
    obtain ⟨path, hpath, heq⟩ := List.mem_filterMap.1 hbefore
    obtain ⟨role, -, rfl⟩ := Option.map_eq_some_iff.1 heq
    have hbytes := hrewritten.read_eq_iff hpath
    have hedits := FilePlan.edits_ofRead path role options (t.readText path)
    simp only [FileOutcome.made, FilePlan.path_ofRead, Bool.not_eq_true', List.isEmpty_eq_false_iff]
    rw [Ne, Ne, hbytes, hedits]
  · obtain ⟨file, hfile⟩ := hapart.file path hpath
    exact destination?_eq_target? hfile hfar

/-- **A dry run tells beforehand what a real run does.** A run is an error exactly when its root is no directory.
Otherwise it has one outcome for each file below the root, in the order of the files. A dry run leaves the tree alone
and writes nothing. A real run leaves the same tree whatever else is checked or listed, and when the files are all at
different places, the dry run has told what it does. -/
theorem lint_foretold (t : FileTree) (root : Path) (options : LintOptions) :
    (t.isDirectory root = false → t.lint root options = .error ⟨root⟩) ∧
    (t.isDirectory root = true → ∃ files dry real after,
      t.filesUnder root = .ok files ∧
      t.lint root { options with dryRun := true } = .ok (dry, t) ∧
      t.lint root { options with dryRun := false } = .ok (real, after) ∧
      dry.map (·.path) = files ∧ real.map (·.path) = files ∧ (∀ outcome ∈ dry, outcome.written = false) ∧
      (∀ docstrings list, ∃ outcomes, t.lint root ⟨docstrings, false, list⟩ = .ok (outcomes, after)) ∧
      ((∀ path ∈ files, ∀ path' ∈ files, t.target? path = t.target? path' → path = path') →
        Foretold t after files dry real)) := by
  constructor
  · intro h
    rw [lint, filesUnder_eq_error h]
    rfl
  · intro h
    obtain ⟨files, hfiles, hnodup, hmem⟩ := exists_filesUnder h
    have hlint : ∀ options : LintOptions, t.lint root options = .ok (lintAll options t files) := by
      intro options
      rw [lint, hfiles]
      rfl
    have hroles : ∀ path ∈ files, (FileRole.ofPath? path).isSome = true := fun path hpath => (hmem path hpath).2
    have hdry := @lintAll_of_dryRun t { options with dryRun := true } rfl files
    have hsame : t.outcomes { options with dryRun := true } files =
        t.outcomes { options with dryRun := false } files :=
      List.filterMap_congr fun path _ => by simp only [FilePlan.outcome_ofRead_congr]
    refine ⟨files, _, _, _, hfiles, (hlint _).trans (congrArg _ hdry), hlint _, ?_, map_path_lintAll hroles t,
      ?_, ?_, ?_⟩
    · have hpaths := @map_path_lintAll { options with dryRun := true } files hroles t
      rwa [hdry] at hpaths
    · intro outcome houtcome
      obtain ⟨path, -, heq⟩ := List.mem_filterMap.1 houtcome
      obtain ⟨role, -, rfl⟩ := Option.map_eq_some_iff.1 heq
      exact FilePlan.written_ofRead _ _ _ _
    · intro docstrings list
      have htree := @tree_lintAll_congr ⟨docstrings, false, list⟩ { options with dryRun := false } rfl files t
      exact ⟨_, by rw [hlint, ← htree]⟩
    · intro hapart
      have hfiles : t.Apart files := by
        refine ⟨fun path hpath => (hmem path hpath).1, ?_⟩
        exact hnodup.imp_of_mem fun hp hp' hne heq => hne (hapart _ hp _ hp' heq)
      rw [hsame]
      exact hfiles.foretold hroles rfl

/-- Two files are found, one of them through an absolute link. -/
theorem lint_foretold_links : linkedTree.isDirectory ⟨"src".toList⟩ = true ∧ ∃ files dry real after,
    files = [⟨"src/Shared.hpp".toList⟩, ⟨"src/a.cpp".toList⟩] ∧
    linkedTree.lint ⟨"src".toList⟩ ⟨true, true, true⟩ = .ok (dry, linkedTree) ∧
    linkedTree.lint ⟨"src".toList⟩ ⟨true, false, true⟩ = .ok (real, after) ∧
    (∀ path ∈ files, ∀ path' ∈ files, linkedTree.target? path = linkedTree.target? path' → path = path') ∧
    Foretold linkedTree after files dry real := by
  have hroot : linkedTree.isDirectory ⟨"src".toList⟩ = true := by decide +kernel
  obtain ⟨files, dry, real, after, hfiles, hdry, hreal, -, -, -, -, hforetold⟩ :=
    (lint_foretold linkedTree ⟨"src".toList⟩ ⟨true, true, true⟩).2 hroot
  have hfound : linkedTree.filesUnder ⟨"src".toList⟩ = .ok [⟨"src/Shared.hpp".toList⟩, ⟨"src/a.cpp".toList⟩] := by
    decide +kernel
  rw [hfound] at hfiles
  cases hfiles
  have hapart : ∀ path ∈ [Path.mk "src/Shared.hpp".toList, ⟨"src/a.cpp".toList⟩],
      ∀ path' ∈ [Path.mk "src/Shared.hpp".toList, ⟨"src/a.cpp".toList⟩],
        linkedTree.target? path = linkedTree.target? path' → path = path' := by decide +kernel
  exact ⟨hroot, _, dry, real, after, rfl, hdry, hreal, hapart, hforetold hapart⟩

/-- A name of 250 bytes. -/
def longName : Text := List.replicate 250 'd'

/-- A file below seventeen directories of long names, and a link that leads to it through another one. -/
def farTree : FileTree where
  entries := ((List.range 18).map fun depth => (List.replicate depth longName, Entry.directory)) ++
    [(List.replicate 17 longName ++ ["real.h".toList], .file (Text.encode "/**\n * File: a.h\n */\n".toList)),
      (["in".toList], .directory),
      (["in".toList, "a.h".toList],
        .link (.ofParts (["..".toList, "s".toList] ++ List.replicate 8 longName ++ ["real.h".toList]))),
      (["s".toList], .link (.ofParts (List.replicate 9 longName)))]
  workDir := []
  sorted := by decide +kernel
  top := List.mem_cons_self
  workDir_mem := List.mem_cons_self
  closed := EntryList.closed_of_all (by decide +kernel)
  named := by decide +kernel

/-- A path to the file without the link of the same name. -/
def farPath : Path := .ofParts (["s".toList] ++ List.replicate 8 longName ++ ["real.h".toList])

/-- The link is a file afterwards, and the file that it led to is as before. -/
theorem lint_link_to_far_file : farTree.isLink ⟨"in/a.h".toList⟩ = .ok true ∧ ∃ outcomes after,
    farTree.lint ⟨"in".toList⟩ ⟨false, false, false⟩ = .ok (outcomes, after) ∧
    after.isLink ⟨"in/a.h".toList⟩ = .ok false ∧
    after.readText farPath = .ok "/**\n * File: a.h\n */\n".toList := by
  have hlink : farTree.isLink ⟨"in/a.h".toList⟩ = .ok true := by decide +kernel
  have hrun : ((farTree.lint ⟨"in".toList⟩ ⟨false, false, false⟩).toOption.map fun result =>
      (result.2.isLink ⟨"in/a.h".toList⟩, result.2.readText farPath)) =
      some (.ok false, .ok "/**\n * File: a.h\n */\n".toList) := by decide +kernel
  obtain ⟨result, hlint, hresult⟩ := Option.map_eq_some_iff.1 hrun
  obtain ⟨hafter, hread⟩ := Prod.mk.inj hresult
  refine ⟨hlink, result.1, result.2, ?_, hafter, hread⟩
  cases hanswer : farTree.lint ⟨"in".toList⟩ ⟨false, false, false⟩ with
  | error cause =>
    rw [hanswer] at hlint
    cases hlint
  | ok found =>
    rw [hanswer] at hlint
    cases hlint
    rfl

end FileTree
end DocLint
