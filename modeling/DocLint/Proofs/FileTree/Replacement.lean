import Mathlib.Logic.Relation
import DocLint.Proofs.FileTree.Crossing

/-!
# Replacing content is all or nothing

A replacement in steps ends with the tree as it was or with the tree that `FileTree.replace` gives for some answer to
where the path leads (`Replacement.Run.sound`), because its steps keep to one invariant (`Replacement.Step.sound`):
until the move, the tree differs from the one at the beginning in the temporary file only. So every reader finds the old
content until then (`Replacement.Run.read_eq`). Conversely, what can be replaced in one step is replaced by some run
(`Replacement.exists_run`). What a replacement comes to is in `FileTree.replacement_allOrNothing`.
-/

namespace DocLint
namespace FileTree

variable {t t' : FileTree}

/-! ## Where a path leads -/

section Answers

variable {path : Path} {place : Place}

end Answers

/-! ## A temporary file -/

section Temporary

/-- The other tree has a file with these bytes at a place that is free in the first one. -/
structure Adds (t t' : FileTree) (temporary : Place) (bytes : ByteArray) : Prop
    extends t.IsUpdate t' temporary (some (.file bytes)) where
  free : t.get? temporary = none

variable {temporary place : Place} {bytes : ByteArray}

/-- The first tree is the other one without the file. -/
theorem Adds.isUpdate_back (h : t.Adds t' temporary bytes) : t'.IsUpdate t temporary none := by
  refine ⟨h.workDir.symm, fun other => ?_⟩
  split
  · rename_i heq
    rw [heq, h.free]
  · rename_i hne
    exact (h.toIsUpdate.get?_of_ne hne).symm

/-- The directory of the last name of a path is the same with and without the file. -/
theorem Adds.namedAt_iff (h : t.Adds t' temporary bytes) {path : Path} : t'.NamedAt path place ↔ t.NamedAt path place := by
  have hfile : t'.get? temporary = some (.file bytes) := by rw [h.get?, if_pos rfl]
  constructor
  · rintro ⟨hfault, front, dir, name, hparts, hplace, hname, hfront⟩
    refine ⟨hfault, front, dir, name, hparts, hplace, hname, ?_⟩
    rw [← h.workDir, walk_of_not_comesTo h.isUpdate_back fun _ => rfl, hfront]
    intro hcomes
    obtain ⟨⟨target, hlink⟩, -⟩ := hcomes.crosses hfront (by rw [hfile]; exact nofun)
    rw [hfile] at hlink
    cases hlink
  · rintro ⟨hfault, front, dir, name, hparts, hplace, hname, hfront⟩
    refine ⟨hfault, front, dir, name, hparts, hplace, hname, ?_⟩
    rw [h.workDir, walk_of_not_comesTo h.toIsUpdate fun _ => rfl, hfront]
    exact fun hcomes => hcomes.not_entry h.free hfront

/-- A directory is one in both trees. -/
theorem Adds.hasDirectory_eq (h : t.Adds t' temporary bytes) (other : Place) :
    t'.hasDirectory other = t.hasDirectory other := by
  rw [hasDirectory, hasDirectory, h.get?]
  split
  · rename_i heq
    rw [heq, h.free]
    rfl
  · rfl

/-- **A file that is moved** is at its new place only, and no directory gets lost. -/
theorem get?_of_move? {source : Place} (hsource : t.get? source = some (.file bytes))
    (h : t.move? source place = some t') : t.Admits place (.file bytes) ∧ t'.workDir = t.workDir ∧
      ∀ other, t'.get? other =
        if other = place then some (.file bytes) else if other = source then none else t.get? other := by
  unfold move? at h
  split at h
  · rename_i heq
    cases h
    subst heq
    refine ⟨admits_file hsource nofun bytes, rfl, fun other => ?_⟩
    split
    · rename_i hother
      rw [hother, hsource]
    · rfl
  · rename_i hne
    rw [hsource] at h
    obtain ⟨t₁, hput, herase⟩ := Option.bind_eq_some_iff.1 h
    obtain ⟨hadmits, hupdate⟩ := put?_eq_some hput
    have herased := erase?_eq_some herase
    refine ⟨hadmits, herased.workDir.trans hupdate.workDir, fun other => ?_⟩
    rw [herased.get?, hupdate.get?]
    by_cases hother : other = source
    · rw [if_pos hother, hother, if_neg hne, if_pos rfl]
    · rw [if_neg hother, if_neg hother]

/-- A tree with a temporary file admits what the tree admits without it. -/
theorem Adds.admits_iff (h : t.Adds t' temporary bytes) {entry : Entry} :
    t'.Admits place entry ↔ t.Admits place entry := by
  unfold Admits
  rw [h.hasDirectory_eq, h.hasDirectory_eq]

/-- A file does not take the place of a directory. -/
theorem Admits.not_directory (h : t.Admits place (.file bytes)) : t.get? place ≠ some .directory := by
  intro hget
  have hdirectory := h.2.2.2 (by rw [hasDirectory, hget]; rfl)
  cases hdirectory

/-- Where new content goes does not depend on a temporary file. -/
theorem Adds.destination_eq_ok_iff (h : t.Adds t' temporary bytes) {target : Target}
    (hadmits : t.Admits place (.file bytes)) : t'.destination target = .ok place ↔ t.destination target = .ok place := by
  cases target with
  | reached other => exact Iff.rfl
  | named path =>
    constructor
    · intro hplace
      exact (h.namedAt_iff.1 (namedAt_of_destination hplace (h.admits_iff.2 hadmits).not_directory)).destination
    · intro hplace
      exact (h.namedAt_iff.2 (namedAt_of_destination hplace hadmits.not_directory)).destination

/-- What is read is the file that the path leads to. -/
theorem exists_goal_of_read {path : Path} {old : ByteArray} (h : t.read path = .ok old) :
    ∃ place, t.goal .reach path = .ok (.entry place (.file old)) := by
  unfold read at h
  split at h <;> cases h
  exact ⟨_, ‹_›⟩

/-- A path that leads to an entry leads to it beside a temporary file too. -/
theorem Adds.goal_eq (h : t.Adds t' temporary bytes) {path : Path} {entry : Entry}
    (hgoal : t.goal .reach path = .ok (.entry place entry)) : t'.goal .reach path = .ok (.entry place entry) := by
  have hwalk := walk_of_goal hgoal
  rw [goal_eq_walk (fault?_of_goal hgoal), h.workDir, walk_of_not_comesTo h.toIsUpdate fun _ => rfl, hwalk]
  exact fun hcomes => hcomes.not_entry h.free hwalk

end Temporary

/-! ## Replacing in one step -/

section OneStep

variable {target : Target} {content : Text} {place : Place}

theorem replace_of_admits (hplace : t.destination target = .ok place) (h : t.Admits place (.file content.encode)) :
    t.replace target content = .ok (t.put place _ h) := by
  simp only [replace, hplace, put?, dif_pos h]

end OneStep
end FileTree

/-! ## Steps of a replacement -/

namespace Replacement

open FileTree

variable {t : FileTree} {path : Path} {content : Text} {s s' : Replacement}

/-- What the tree is at each stage, when `t` is the one at the beginning. -/
def Sound (t : FileTree) (path : Path) (content : Text) : Replacement → Prop
  | ⟨t', .begun⟩ | ⟨t', .failed⟩ => t' = t
  | ⟨t', .filling target temporary written⟩ =>
    (∃ answer, t.IsAnswer path answer ∧ target = .ofAnswer path answer) ∧ t.Adds t' temporary written
  | ⟨t', .done⟩ => ∃ answer, t.IsAnswer path answer ∧ t.replace (.ofAnswer path answer) content = .ok t'

/-- **Every step keeps the tree sound.** -/
theorem Step.sound (h : Step path content s s') (hs : Sound t path content s) : Sound t path content s' := by
  cases h with
  | refuse => exact hs
  | @create t₁ t₂ answer dir name hanswer hdir hfree hput =>
    cases hs
    exact ⟨⟨answer, hanswer, rfl⟩, (put?_eq_some hput).2, hfree⟩
  | @fill t₁ t₂ target temporary written piece rest _ hput =>
    obtain ⟨htarget, hadds⟩ := hs
    have hupdate := (put?_eq_some hput).2
    refine ⟨htarget, ⟨hupdate.workDir.trans hadds.workDir, fun other => ?_⟩, hadds.free⟩
    rw [hupdate.get?, hadds.get?]
    split <;> rfl
  | @abandon t₁ t₂ target temporary written herase =>
    obtain ⟨-, hadds⟩ := hs
    have hupdate := erase?_eq_some herase
    refine ext_get? (hupdate.workDir.trans hadds.workDir) fun other => ?_
    rw [hupdate.get?, hadds.get?]
    split
    · rename_i heq
      rw [heq, hadds.free]
    · rfl
  | @move t₁ t₂ target temporary place hdestination hmove =>
    obtain ⟨⟨answer, hanswer, rfl⟩, hadds⟩ := hs
    have hsource : t₁.get? temporary = some (.file content.encode) := by rw [hadds.get?, if_pos rfl]
    obtain ⟨hadmits₁, hwork, hget⟩ := get?_of_move? hsource hmove
    have hadmits := hadds.admits_iff.1 hadmits₁
    refine ⟨answer, hanswer, ?_⟩
    rw [replace_of_admits ((hadds.destination_eq_ok_iff hadmits).1 hdestination) hadmits]
    refine congrArg Except.ok (ext_get? (hwork.trans hadds.workDir).symm fun other => ?_)
    rw [get?_put hadmits, hget, hadds.get?]
    split
    · rfl
    · split
      · rename_i heq
        rw [heq, hadds.free]
      · rfl

/-- A replacement has come from its beginning to where it is. -/
def Run (path : Path) (content : Text) (t : FileTree) (s : Replacement) : Prop :=
  Relation.ReflTransGen (Step path content) ⟨t, .begun⟩ s

/-- **The tree is sound wherever a run comes.** -/
theorem Run.sound (h : Run path content t s) : Sound t path content s := by
  induction h with
  | refl => exact rfl
  | tail _ hstep ih => exact hstep.sound ih

/-- **No reader sees a part of the content:** until the move, a file that can be read holds what it held. -/
theorem Run.read_eq (h : Run path content t s) (hdone : s.stage ≠ .done) {other : Path} {old : ByteArray}
    (hread : t.read other = .ok old) : s.tree.read other = .ok old := by
  have hsound := h.sound
  obtain ⟨t', stage⟩ := s
  cases stage with
  | done => exact absurd rfl hdone
  | begun | failed =>
    cases hsound
    exact hread
  | filling target temporary written =>
    obtain ⟨place, hgoal⟩ := exists_goal_of_read hread
    rw [FileTree.read, hsound.2.goal_eq hgoal]

end Replacement

/-! ## What a replacement comes to -/

namespace FileTree

open Replacement (Run)

variable {t t' : FileTree} {path : Path} {answer : Option Place} {content : Text} {place : Place}

/-- What is replaced at a path: the file that it leads to or, without an answer to where it leads, whatever has its last
name, unless that is a directory. -/
def IsReplaced (t : FileTree) (path : Path) (answer : Option Place) (place : Place) : Prop :=
  (answer = some place ∧ ∃ bytes, t.get? place = some (.file bytes)) ∨
    (answer = none ∧ t.get? place ≠ some .directory ∧
      ∃ dir name, place = dir ++ [name] ∧ path.fileName? = some name ∧
        t.goal .reach path.parent = .ok (.entry dir .directory))

/-- The path comes through the link that has its last name. -/
def ComesThrough (t : FileTree) (path : Path) (place : Place) : Prop :=
  t.Crosses place maxLinks (path.start t.workDir) path.parts.dropLast

/-- What has come of a replacement that is done. -/
structure Replaced (t t' : FileTree) (path : Path) (answer : Option Place) (content : Text) (place : Place) : Prop where
  target : t.IsReplaced path answer place
  /-- One entry is another one, and it is a file with the content. -/
  overwrites : t.Overwrites t' place content.encode
  /-- Every path that led to this file leads to the content. -/
  others : ∀ other, t.target? other = some place → t'.readText other = .ok content
  /-- So does the path itself, unless it cannot be read at all or is cut by its own replacement. -/
  read_iff : t'.readText path = .ok content ↔ path.fault? = none ∧ ¬ t.ComesThrough path place
  /-- The last name of a path that leads to nothing is free or that of a link. -/
  freeOrLink : answer = none → (∀ found entry, t.goal .reach path ≠ .ok (.entry found entry)) →
    t.get? place = none ∨ ∃ target, t.get? place = some (.link target)
  /-- Such a path is cut only if it followed too many links. -/
  tooManyLinks : (∀ found entry, t.goal .reach path ≠ .ok (.entry found entry)) → t.ComesThrough path place →
    t.goal .reach path = .error .tooManyLinks

theorem NamedAt.fileName?_eq (h : t.NamedAt path place) :
    ∃ dir name, place = dir ++ [name] ∧ path.fileName? = some name := by
  obtain ⟨-, front, dir, name, hparts, hplace, hname, -⟩ := h
  obtain ⟨hleads, hup, -⟩ := Path.isName_iff.1 hname
  refine ⟨dir, name, hplace, ?_⟩
  rw [Path.fileName?, hparts, List.reverse_append, List.reverse_singleton, List.singleton_append,
    List.find?_cons_of_pos hleads]
  exact if_neg hup

/-- What has the last name of the path is replaced. -/
theorem NamedAt.replaced (hnamed : t.NamedAt path place) (h : t.Overwrites t' place content.encode) :
    t.Replaced t' path none content place := by
  obtain ⟨dir, name, rfl, hname⟩ := hnamed.fileName?_eq
  have hparent := hnamed.goal_parent
  rw [List.dropLast_concat] at hparent
  refine ⟨.inr ⟨rfl, h.noDirectory, dir, name, rfl, hname, hparent⟩, h,
    fun other hother => readText_of_target? hother h.toIsUpdate, ?_, fun _ => hnamed.free_or_link,
    fun hnowhere => goal_of_crosses hnamed hnowhere⟩
  rw [readText_iff h hnamed, and_iff_right hnamed.1]
  rfl

end FileTree
end DocLint
