import DocLint.Proofs.FileTree.Writing
import DocLint.Proofs.FileHeader.LineStructure

/-!
# Rewriting files one after the other

A file is rewritten when the edits of its header change its text. Rewriting files at different places does to the tree
what rewriting each of them does (`FileTree.Rewritten.cons`), since writing one of them affects no path to another. In
the end each file reads as its edited content, and nothing has changed but the places where new texts are put. Those are
the files themselves, exactly if no link to a file is replaced instead (`FileTree.Rewritten.others_iff`).
-/

namespace DocLint

/-- The text to write for a file, from what reading it gave: the edited content, if there are edits. -/
def HeaderReview.newText? (path : Path) : Except AccessError Text → Option Text
  | .ok content =>
    if (ofContent path content).edits = [] then none else some ((ofContent path content).apply content)
  | .error _ => none

namespace FileTree

variable {t t' after : FileTree} {path : Path} {paths : List Path}

/-! ## What is rewritten -/

/-- What is read of a file after it has been checked: its new text if there is one. -/
def readAfter (t : FileTree) (path : Path) : Except AccessError ByteArray :=
  match HeaderReview.newText? path (t.readText path) with
  | some content => .ok content.encode
  | none => t.read path

/-- What a real run over some files does to a tree. -/
structure Rewritten (t after : FileTree) (paths : List Path) : Prop where
  read : ∀ path ∈ paths, after.read path = t.readAfter path
  /-- A new text is put where new content goes, and the path leads there. -/
  put : ∀ path ∈ paths, ∀ content, HeaderReview.newText? path (t.readText path) = some content →
    ∃ place, t.destination? path = some place ∧ after.target? path = some place ∧
      after.get? place = some (.file content.encode)
  /-- All other places are as before. -/
  others : ∀ place, (∀ path ∈ paths, t.destination? path = some place →
    HeaderReview.newText? path (t.readText path) = none) → after.get? place = t.get? place
  /-- So are the paths to other files. -/
  unaffected : ∀ path file, t.target? path = some file → (∀ path' ∈ paths, t.target? path' ≠ some file) →
    t.Unaffected after path file

theorem Rewritten.nil (t : FileTree) : t.Rewritten t [] where
  read _ hpath := nomatch hpath
  put _ hpath := nomatch hpath
  others _ _ := rfl
  unaffected _ _ hfile _ := .refl hfile

theorem Rewritten.of_none (h : HeaderReview.newText? path (t.readText path) = none) : t.Rewritten t [path] where
  read p hp := by
    rw [List.mem_singleton.1 hp, readAfter, h]
  put p hp content hnew := by
    rw [List.mem_singleton.1 hp, h] at hnew
    cases hnew
  others _ _ := rfl
  unaffected _ _ hfile _ := .refl hfile

theorem Rewritten.of_writes {file place : Place} {content : Text} (hfile : t.target? path = some file)
    (h : HeaderReview.newText? path (t.readText path) = some content) (hwrites : t.Writes t' path file place content) :
    t.Rewritten t' [path] where
  read p hp := by
    rw [List.mem_singleton.1 hp, readAfter, h]
    exact hwrites.read_eq
  put p hp content' hnew := by
    rw [List.mem_singleton.1 hp] at hnew ⊢
    cases h.symm.trans hnew
    exact ⟨place, hwrites.destination?, hwrites.target?, by rw [hwrites.overwrites.get?, if_pos rfl]⟩
  others other hno := by
    refine hwrites.overwrites.toIsUpdate.get?_of_ne ?_
    rintro rfl
    have hnone := hno path (List.mem_singleton_self _) hwrites.destination?
    rw [h] at hnone
    cases hnone
  unaffected q other hother hno := by
    refine hwrites.leadsTo.unaffected hwrites.overwrites hother ?_
    rintro rfl
    exact hno path (List.mem_singleton_self _) hfile

/-! ## One file after the other -/

/-- The paths lead to files, each to another one. -/
structure Apart (t : FileTree) (paths : List Path) : Prop where
  file : ∀ path ∈ paths, ∃ file, t.target? path = some file
  apart : paths.Pairwise fun path path' => t.target? path ≠ t.target? path'

/-- The paths lead to files, and these are the same in both trees. -/
def Keeps (t t' : FileTree) (paths : List Path) : Prop :=
  ∀ path ∈ paths, ∃ file, t.target? path = some file ∧ t.Unaffected t' path file

section Keeps

variable (h : t.Keeps t' paths)
include h

theorem Keeps.target?_eq (path : Path) (hpath : path ∈ paths) : t'.target? path = t.target? path := by
  obtain ⟨file, hfile, hsame⟩ := h path hpath
  rw [hfile, hsame.target?]

theorem Keeps.destination?_eq (path : Path) (hpath : path ∈ paths) : t'.destination? path = t.destination? path := by
  obtain ⟨file, -, hsame⟩ := h path hpath
  exact hsame.destination?

theorem Keeps.read_eq (path : Path) (hpath : path ∈ paths) : t'.read path = t.read path := by
  obtain ⟨file, hfile, hsame⟩ := h path hpath
  exact hsame.read_eq hfile

theorem Keeps.readText_eq (path : Path) (hpath : path ∈ paths) : t'.readText path = t.readText path := by
  rw [readText, readText, h.read_eq path hpath]

end Keeps

/-- The check of a file keeps files at other places. -/
theorem Apart.keeps {rest : List Path} (h : t.Apart (path :: rest)) (hstep : t.Rewritten t' [path]) :
    t.Keeps t' rest := by
  intro p hp
  obtain ⟨file, hfile⟩ := h.file p (List.mem_cons_of_mem _ hp)
  refine ⟨file, hfile, hstep.unaffected p file hfile fun p' hp' => ?_⟩
  rw [List.mem_singleton.1 hp', ← hfile]
  exact (List.pairwise_cons.1 h.apart).1 p hp

theorem Apart.of_keeps {rest : List Path} (h : t.Apart (path :: rest)) (hkeeps : t.Keeps t' rest) : t'.Apart rest where
  file p hp := hkeeps.target?_eq p hp ▸ h.file p (List.mem_cons_of_mem _ hp)
  apart := (List.pairwise_cons.1 h.apart).2.imp_of_mem fun hp hp' hne => by
    rwa [hkeeps.target?_eq _ hp, hkeeps.target?_eq _ hp']

/-- The check of a file and then of files at other places. -/
theorem Rewritten.cons {rest : List Path} {file place : Place} (hapart : t.Apart (path :: rest))
    (hfile : t.target? path = some file) (hlead : t.LeadsTo file place) (hplace : t'.target? path = some place)
    (hstep : t.Rewritten t' [path]) (h : t'.Rewritten after rest) : t.Rewritten after (path :: rest) := by
  have hkeeps := hapart.keeps hstep
  -- What has been written for the first path stays, since the others lead elsewhere.
  have hfirst : t'.Unaffected after path place := by
    refine h.unaffected path place hplace fun p hp heq => ?_
    rw [hkeeps.target?_eq p hp] at heq
    refine hlead.ne_of_target? heq ?_ rfl
    rintro rfl
    exact (List.pairwise_cons.1 hapart.apart).1 p hp (hfile.trans heq.symm)
  refine ⟨?_, ?_, ?_, ?_⟩
  · rw [List.forall_mem_cons]
    refine ⟨(hfirst.read_eq hplace).trans (hstep.read path (List.mem_singleton_self _)), fun p hp => ?_⟩
    rw [h.read p hp, readAfter, readAfter, hkeeps.readText_eq p hp, hkeeps.read_eq p hp]
  · rw [List.forall_mem_cons]
    refine ⟨fun content hnew => ?_, fun p hp content hnew => ?_⟩
    · obtain ⟨place', hput, htarget, hget⟩ := hstep.put path (List.mem_singleton_self _) content hnew
      cases hplace.symm.trans htarget
      exact ⟨place, hput, hfirst.target?, hfirst.get?.trans hget⟩
    · rw [← hkeeps.readText_eq p hp] at hnew
      rw [← hkeeps.destination?_eq p hp]
      exact h.put p hp content hnew
  · intro other hno
    obtain ⟨hnofirst, hnorest⟩ := List.forall_mem_cons.1 hno
    have hafter : after.get? other = t'.get? other := by
      refine h.others other fun p hp heq => ?_
      rw [hkeeps.readText_eq p hp]
      exact hnorest p hp ((hkeeps.destination?_eq p hp).symm.trans heq)
    exact hafter.trans (hstep.others other fun p hp => List.mem_singleton.1 hp ▸ hnofirst)
  · intro q other hother hno
    obtain ⟨hnofirst, hnorest⟩ := List.forall_mem_cons.1 hno
    have hsame := hstep.unaffected q other hother fun p hp => List.mem_singleton.1 hp ▸ hnofirst
    exact hsame.trans (h.unaffected q other hsame.target? fun p hp => (hkeeps.target?_eq p hp).symm ▸ hnorest p hp)

/-! ## Contents afterwards -/

section After

/-- The bytes of a file change exactly when there is a text to write for it. -/
theorem Rewritten.read_eq_iff (h : t.Rewritten after paths) (hpath : path ∈ paths) :
    after.read path = t.read path ↔ HeaderReview.newText? path (t.readText path) = none := by
  rw [h.read path hpath, readAfter]
  cases hnew : HeaderReview.newText? path (t.readText path) with
  | none => exact iff_of_true rfl rfl
  | some content =>
    refine iff_of_false (fun hsame => ?_) (Option.some_ne_none content)
    -- The file had these bytes before, so that the edits give the content that they were made in.
    have htext : t.readText path = .ok content := by
      rw [readText, ← hsame]
      simp [Text.decode?_encode]
    rw [htext, HeaderReview.newText?] at hnew
    split at hnew
    · cases hnew
    · rename_i hne
      exact hne ((HeaderReview.apply_eq_self_iff path content).1 (Option.some.inj hnew))

/-- A file that could be read holds its edited content afterwards. -/
theorem Rewritten.readText_eq (h : t.Rewritten after paths) (hpath : path ∈ paths) {content : Text}
    (htext : t.readText path = .ok content) :
    after.readText path = .ok ((HeaderReview.ofContent path content).apply content) := by
  by_cases hedits : (HeaderReview.ofContent path content).edits = []
  · have hnew : HeaderReview.newText? path (t.readText path) = none := by
      rw [htext, HeaderReview.newText?, if_pos hedits]
    rw [(HeaderReview.apply_eq_self_iff path content).2 hedits, ← htext, readText, readText,
      (h.read_eq_iff hpath).2 hnew]
  · rw [readText, h.read path hpath, readAfter, htext, HeaderReview.newText?, if_neg hedits]
    simp [Text.decode?_encode]

/-- **Only files are changed** exactly if the new texts are put at the files. -/
theorem Rewritten.others_iff (h : t.Rewritten after paths) (hfiles : ∀ path ∈ paths, ∃ file, t.target? path = some file) :
    (∀ place, (∀ path ∈ paths, t.target? path = some place → ∀ content, t.readText path ≠ .ok content) →
      after.get? place = t.get? place) ↔
    ∀ path ∈ paths, HeaderReview.newText? path (t.readText path) ≠ none → t.destination? path = t.target? path := by
  constructor
  · intro hothers path hpath hnew
    obtain ⟨content, hcontent⟩ := Option.ne_none_iff_exists'.1 hnew
    obtain ⟨file, hfile⟩ := hfiles path hpath
    obtain ⟨place, hput, -, hget⟩ := h.put path hpath content hcontent
    obtain ⟨place', hlead, hdestination, -⟩ := exists_destination? hfile
    have heq : place' = place := by
      rw [destination?, hdestination] at hput
      exact Option.some.inj hput
    subst heq
    cases hlead with
    | self => exact hput.trans hfile.symm
    | link links hlink htarget =>
      have hsame := hothers _ fun p _ hp => by
        obtain ⟨bytes, hbytes, -⟩ := exists_read_of_target? hp
        rw [hlink] at hbytes
        cases hbytes
      rw [hsame, hlink] at hget
      cases hget
  · intro hput place hno
    refine h.others place fun path hpath hplace => ?_
    by_contra hnew
    have htarget := (hput path hpath hnew).symm.trans hplace
    cases hread : t.readText path with
    | ok content => exact hno path hpath htarget content hread
    | error cause =>
      rw [hread] at hnew
      exact hnew rfl

end After

end FileTree
end DocLint
