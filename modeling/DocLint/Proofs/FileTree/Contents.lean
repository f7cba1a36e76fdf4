import Mathlib.Data.List.Perm.Basic
import DocLint.FileTree.Access

/-!
# The contents of files

A step changes a tree at one place (`FileTree.IsUpdate`). Two trees are alike when they differ in the bytes of files only
(`FileTree.Alike`). Paths lead to the same places in them (`Alike.goal`), so that replacing the content of a file
changes no path. A path that leads to a file can be written, and the entry of that file is the only one that changes
(`replaceContent_of_target?`).
-/

namespace DocLint
namespace FileTree

variable {t t' : FileTree}

/-! ## Entries -/

section Entries

/-- Lists in strict order have the same elements only if they are the same. -/
theorem eq_of_pairwise_lt {α : Type*} {key : α → List Text} {l l' : List α}
    (h : l.Pairwise fun a b => key a < key b) (h' : l'.Pairwise fun a b => key a < key b)
    (hmem : ∀ a, a ∈ l ↔ a ∈ l') : l = l' := by
  have hne : ∀ {a b : α}, key a < key b → a ≠ b := fun hlt heq => List.lt_irrefl _ (heq ▸ hlt)
  have hperm := (List.perm_ext_iff_of_nodup (h.imp hne) (h'.imp hne)).2 hmem
  exact hperm.eq_of_pairwise (fun a b _ _ hab hba => absurd hba (List.lt_asymm hab)) h h'

/-- **Trees that hold the same are the same,** if one works in the same directory. -/
theorem ext_get? (hwork : t.workDir = t'.workDir) (h : ∀ place, t.get? place = t'.get? place) : t = t' := by
  have hentries : t.entries = t'.entries := eq_of_pairwise_lt t.sorted t'.sorted fun ⟨place, entry⟩ => by
    rw [← get?_eq_some_iff, h, get?_eq_some_iff]
  cases t
  cases t'
  cases hwork
  cases hentries
  rfl

theorem get?_top (t : FileTree) : t.get? [] = some .directory := get?_of_mem t.top

theorem get?_workDir (t : FileTree) : t.get? t.workDir = some .directory := get?_of_mem t.workDir_mem

/-- The second tree is the first one with `held` at a place. -/
structure IsUpdate (t t' : FileTree) (place : Place) (held : Option Entry) : Prop where
  workDir : t'.workDir = t.workDir
  get? : ∀ other, t'.get? other = if other = place then held else t.get? other

theorem IsUpdate.get?_of_ne {place : Place} {held : Option Entry} (h : t.IsUpdate t' place held) {other : Place}
    (hne : other ≠ place) : t'.get? other = t.get? other := (h.get? other).trans (if_neg hne)

theorem get?_put {place : Place} {entry : Entry} (h : t.Admits place entry) (other : Place) :
    (t.put place entry h).get? other = if other = place then some entry else t.get? other := by
  split
  · rename_i heq
    rw [heq]
    exact get?_of_mem (EntryList.mem_set_self place entry t.entries)
  · rename_i hne
    refine Option.ext fun e => ?_
    rw [get?_eq_some_iff, get?_eq_some_iff]
    constructor
    · intro hmem
      refine (EntryList.mem_of_mem_set hmem).resolve_left fun heq => hne ?_
      exact congrArg Prod.fst heq
    · intro hmem
      exact EntryList.mem_set_of_mem hmem hne

theorem get?_erase {place : Place} (h : t.hasDirectory place = false) (other : Place) :
    (t.erase place h).get? other = if other = place then none else t.get? other := by
  refine Option.ext fun e => ?_
  rw [get?_eq_some_iff, erase, List.mem_filter, ← get?_eq_some_iff]
  by_cases hother : other = place
  · simp [hother]
  · simp [hother]

theorem isUpdate_put {place : Place} {entry : Entry} (h : t.Admits place entry) :
    t.IsUpdate (t.put place entry h) place (some entry) := ⟨rfl, get?_put h⟩

theorem put?_eq_some {place : Place} {entry : Entry} (h : t.put? place entry = some t') :
    t.Admits place entry ∧ t.IsUpdate t' place (some entry) := by
  unfold put? at h
  split at h
  · rename_i hadmits
    cases h
    exact ⟨hadmits, isUpdate_put hadmits⟩
  · cases h

theorem erase?_eq_some {place : Place} (h : t.erase? place = some t') : t.IsUpdate t' place none := by
  unfold erase? at h
  split at h
  · cases h
    exact ⟨rfl, get?_erase _⟩
  · cases h

/-- The directory that an entry lies in. -/
theorem get?_dropLast {place : Place} {entry : Entry} (h : t.get? place = some entry) (hne : place ≠ []) :
    t.get? place.dropLast = some .directory := by
  have hmem := mem_of_get? h
  rw [← List.dropLast_concat_getLast hne] at hmem
  exact get?_of_mem (t.closed _ _ _ hmem)

/-- What is no directory can be replaced by a file. -/
theorem admits_file {place : Place} {entry : Entry} (h : t.get? place = some entry) (hno : entry ≠ .directory)
    (bytes : ByteArray) : t.Admits place (.file bytes) := by
  have hne : place ≠ [] := by
    rintro rfl
    rw [get?_top] at h
    exact hno (Option.some.inj h).symm
  refine ⟨hne, t.named _ (mem_of_get? h), ?_, fun hdir => ?_⟩
  · rw [hasDirectory, get?_dropLast h hne]
    rfl
  · have hmem := hasDirectory_iff.1 hdir
    rw [← get?_eq_some_iff, h] at hmem
    exact absurd (Option.some.inj hmem) hno

end Entries

/-! ## Where paths lead -/

section Steps

/-- What comes of the entry of a name before the parts `rest` in a directory. -/
def followEntry (t : FileTree) (ending : Ending) (enter : Place → List Text → Except AccessError Goal) (dir : Place)
    (part : Text) (rest : List Text) : Except AccessError Goal :=
  match t.get? (dir ++ [part]) with
  | some .directory => t.walkParts ending enter (dir ++ [part]) rest
  | some (.link target) =>
    if ending.isLast rest && ending.keepsLink then .ok (.entry (dir ++ [part]) (.link target))
    else enter (target.start dir) (target.parts ++ rest)
  | some (.file bytes) =>
    if ending.isLast rest then .ok (.entry (dir ++ [part]) (.file bytes)) else .error .notDirectory
  | none => if ending.isLast rest then .ok (.vacant (dir ++ [part])) else .error .notFound

/-- What comes of a name before the parts `rest` in a directory. -/
def followName (t : FileTree) (ending : Ending) (enter : Place → List Text → Except AccessError Goal) (dir : Place)
    (part : Text) (rest : List Text) : Except AccessError Goal :=
  if ending.overlong (dir ++ [part]) (t.get? (dir ++ [part])) rest then .error .nameTooLong
  else t.followEntry ending enter dir part rest

/-- The error of a part that is refused whatever the tree holds. -/
def refusal? (ending : Ending) (part : Text) (rest : List Text) : Option AccessError :=
  if ending.refuses rest then some .isDirectory else if !Place.isName part then some .nameTooLong else none

/-- One part of a path stays, goes up, is refused or is a name. -/
theorem walkParts_cons (t : FileTree) (ending : Ending) (enter : Place → List Text → Except AccessError Goal)
    (dir : Place) (part : Text) (rest : List Text) : t.walkParts ending enter dir (part :: rest) =
      if !Path.leads part then t.walkParts ending enter dir rest
      else if part = Path.above then t.walkParts ending enter dir.dropLast rest
      else match refusal? ending part rest with
        | some cause => .error cause
        | none => t.followName ending enter dir part rest := by
  rw [walkParts.eq_def]
  refine ite_congr rfl (fun _ => rfl) fun _ => ite_congr rfl (fun _ => rfl) fun _ => ?_
  unfold refusal?
  cases ending.refuses rest <;> cases Place.isName part <;> rfl

end Steps

section Goals

theorem get?_above {dir : Place} (h : t.get? dir = some .directory) : t.get? dir.dropLast = some .directory := by
  by_cases hne : dir = []
  · rwa [hne] at h ⊢
  · exact get?_dropLast h hne

theorem get?_start {dir : Place} (h : t.get? dir = some .directory) (path : Path) :
    t.get? (path.start dir) = some .directory := by
  unfold Path.start
  split
  · exact get?_top t
  · exact h

/-- What a path leads to is an entry of the tree. -/
def HasGoal (t : FileTree) (result : Except AccessError Goal) : Prop :=
  ∀ place entry, result = .ok (.entry place entry) → t.get? place = some entry

theorem hasGoal_error (cause : AccessError) : t.HasGoal (.error cause) := by
  intro place entry heq
  cases heq

theorem hasGoal_followName {ending : Ending} {enter : Place → List Text → Except AccessError Goal} {dir : Place}
    {part : Text} {rest : List Text} (hdir : t.get? dir = some .directory)
    (henter : ∀ dir parts, t.get? dir = some .directory → t.HasGoal (enter dir parts))
    (hwalk : ∀ dir, t.get? dir = some .directory → t.HasGoal (t.walkParts ending enter dir rest)) :
    t.HasGoal (t.followName ending enter dir part rest) := by
  unfold followName
  split
  · exact hasGoal_error _
  unfold followEntry
  split
  · rename_i hget
    exact hwalk _ hget
  · rename_i target hget
    split
    · intro _ _ heq
      cases heq
      exact hget
    · exact henter _ _ (get?_start hdir target)
  · rename_i bytes hget
    split
    · intro _ _ heq
      cases heq
      exact hget
    · exact hasGoal_error _
  · split
    · intro _ _ heq
      cases heq
    · exact hasGoal_error _

theorem hasGoal_walkParts (ending : Ending) {enter : Place → List Text → Except AccessError Goal}
    (henter : ∀ dir parts, t.get? dir = some .directory → t.HasGoal (enter dir parts)) :
    ∀ (parts : List Text) (dir : Place), t.get? dir = some .directory → t.HasGoal (t.walkParts ending enter dir parts)
  | [], dir, hdir => by
    intro _ _ heq
    cases heq
    exact hdir
  | part :: rest, dir, hdir => by
    have ih := hasGoal_walkParts ending henter rest
    rw [walkParts_cons]
    split
    · exact ih dir hdir
    · split
      · exact ih dir.dropLast (get?_above hdir)
      · split
        · exact hasGoal_error _
        · exact hasGoal_followName hdir henter ih

theorem hasGoal_walk (ending : Ending) : ∀ (links : Nat) (dir : Place) (parts : List Text),
    t.get? dir = some .directory → t.HasGoal (t.walk ending links dir parts)
  | 0, dir, parts => hasGoal_walkParts ending (fun _ _ _ => hasGoal_error _) parts dir
  | links + 1, dir, parts => hasGoal_walkParts ending (hasGoal_walk ending links) parts dir

/-- Every path starts in a directory. -/
theorem hasGoal_walk_start (t : FileTree) (ending : Ending) (path : Path) :
    t.HasGoal (t.walk ending maxLinks (path.start t.workDir) path.parts) :=
  hasGoal_walk ending maxLinks _ _ (get?_start t.get?_workDir path)

/-- **A path leads to what the tree holds.** -/
theorem get?_of_goal {ending : Ending} {path : Path} {place : Place} {entry : Entry}
    (h : t.goal ending path = .ok (.entry place entry)) : t.get? place = some entry := by
  unfold goal at h
  split at h
  · cases h
  · exact t.hasGoal_walk_start ending path place entry h

end Goals

/-! ## Trees that differ in contents -/

section Alike

/-- Two places hold the same, or a file each. -/
inductive HoldAlike : Option Entry → Option Entry → Prop
  | same (held : Option Entry) : HoldAlike held held
  | file (bytes bytes' : ByteArray) : HoldAlike (some (.file bytes)) (some (.file bytes'))

theorem HoldAlike.overlong_eq {held held' : Option Entry} (h : HoldAlike held held') (ending : Ending) (place : Place)
    (rest : List Text) : ending.overlong place held rest = ending.overlong place held' rest := by
  cases h <;> rfl

/-- Two paths lead to the same, or to a file each at the same place. -/
inductive LeadAlike : Except AccessError Goal → Except AccessError Goal → Prop
  | same (result : Except AccessError Goal) : LeadAlike result result
  | file (place : Place) (bytes bytes' : ByteArray) :
      LeadAlike (.ok (.entry place (.file bytes))) (.ok (.entry place (.file bytes')))

/-- The trees hold the same up to the bytes of files. -/
structure Alike (t t' : FileTree) : Prop where
  workDir : t'.workDir = t.workDir
  hold : ∀ place, HoldAlike (t.get? place) (t'.get? place)

theorem Alike.refl (t : FileTree) : Alike t t := ⟨rfl, fun _ => .same _⟩

theorem Alike.trans {t'' : FileTree} (h : Alike t t') (h' : Alike t' t'') : Alike t t'' := by
  refine ⟨h'.workDir.trans h.workDir, fun place => ?_⟩
  have hold := h.hold place
  have hold' := h'.hold place
  generalize t.get? place = a, t'.get? place = b, t''.get? place = c at hold hold' ⊢
  cases hold with
  | same => exact hold'
  | file bytes bytes' =>
    cases hold' with
    | same => exact .file bytes bytes'
    | file _ bytes'' => exact .file bytes bytes''

/-- A file in place of a file leaves the trees alike. -/
theorem IsUpdate.alike {place : Place} {bytes bytes' : ByteArray} (h : t.IsUpdate t' place (some (.file bytes')))
    (hget : t.get? place = some (.file bytes)) : Alike t t' := by
  refine ⟨h.workDir, fun other => ?_⟩
  rw [h.get?]
  split
  · rename_i heq
    rw [heq, hget]
    exact .file _ _
  · exact .same _

theorem Alike.followName (h : Alike t t') {ending : Ending}
    {enter enter' : Place → List Text → Except AccessError Goal}
    (henter : ∀ dir parts, LeadAlike (enter dir parts) (enter' dir parts)) (dir : Place) (part : Text)
    {rest : List Text}
    (hwalk : ∀ dir, LeadAlike (t.walkParts ending enter dir rest) (t'.walkParts ending enter' dir rest)) :
    LeadAlike (t.followName ending enter dir part rest) (t'.followName ending enter' dir part rest) := by
  have hold := h.hold (dir ++ [part])
  unfold FileTree.followName FileTree.followEntry
  generalize t.get? (dir ++ [part]) = held, t'.get? (dir ++ [part]) = held' at hold ⊢
  rw [hold.overlong_eq]
  split
  · exact .same _
  cases hold with
  | file bytes bytes' =>
    cases hlast : ending.isLast rest with
    | true => exact .file _ bytes bytes'
    | false => exact .same _
  | same =>
    cases held with
    | none => exact .same _
    | some entry =>
      cases entry with
      | file bytes => exact .same _
      | directory => exact hwalk _
      | link target =>
        dsimp only
        split
        · exact .same _
        · exact henter _ _

theorem Alike.walkParts (h : Alike t t') (ending : Ending)
    {enter enter' : Place → List Text → Except AccessError Goal}
    (henter : ∀ dir parts, LeadAlike (enter dir parts) (enter' dir parts)) :
    ∀ (parts : List Text) (dir : Place),
      LeadAlike (t.walkParts ending enter dir parts) (t'.walkParts ending enter' dir parts)
  | [], _ => .same _
  | part :: rest, dir => by
    have ih := h.walkParts ending henter rest
    rw [walkParts_cons, walkParts_cons]
    by_cases hstay : (!Path.leads part) = true
    · rw [if_pos hstay, if_pos hstay]
      exact ih dir
    · rw [if_neg hstay, if_neg hstay]
      by_cases hup : part = Path.above
      · rw [if_pos hup, if_pos hup]
        exact ih dir.dropLast
      · rw [if_neg hup, if_neg hup]
        cases refusal? ending part rest with
        | some cause => exact .same _
        | none => exact h.followName henter dir part ih

theorem Alike.walk (h : Alike t t') (ending : Ending) : ∀ (links : Nat) (dir : Place) (parts : List Text),
    LeadAlike (t.walk ending links dir parts) (t'.walk ending links dir parts)
  | 0, dir, parts => h.walkParts ending (fun _ _ => .same _) parts dir
  | links + 1, dir, parts => h.walkParts ending (h.walk ending links) parts dir

/-- **Contents lead nowhere:** a path leads to the same place in trees that are alike. -/
theorem Alike.goal (h : Alike t t') (ending : Ending) (path : Path) :
    LeadAlike (t.goal ending path) (t'.goal ending path) := by
  unfold FileTree.goal
  rw [h.workDir]
  split
  · exact .same _
  · exact h.walk ending maxLinks _ _

end Alike

/-! ## The file at the end of a path -/

section Targets

/-- The place of the file that the path leads to. -/
def target? (t : FileTree) (path : Path) : Option Place :=
  match t.goal .reach path with
  | .ok (.entry place (.file _)) => some place
  | _ => none

theorem target?_eq_some_iff {path : Path} {place : Place} :
    t.target? path = some place ↔ ∃ bytes, t.goal .reach path = .ok (.entry place (.file bytes)) := by
  unfold target?
  split
  · rename_i place' bytes hgoal
    constructor
    · intro heq
      cases heq
      exact ⟨bytes, hgoal⟩
    · rintro ⟨bytes', heq⟩
      rw [hgoal] at heq
      cases heq
      rfl
  · rename_i hne
    constructor
    · intro heq
      cases heq
    · rintro ⟨bytes, heq⟩
      exact absurd heq (hne place bytes)

theorem isFile_iff {path : Path} : t.isFile path = true ↔ ∃ place, t.target? path = some place := by
  constructor
  · intro h
    unfold isFile at h
    split at h
    · rename_i place bytes hgoal
      exact ⟨place, target?_eq_some_iff.2 ⟨bytes, hgoal⟩⟩
    · cases h
  · rintro ⟨place, h⟩
    obtain ⟨bytes, hgoal⟩ := target?_eq_some_iff.1 h
    rw [isFile, hgoal]

theorem Alike.target?_eq (h : Alike t t') (path : Path) : t'.target? path = t.target? path := by
  have hlead := h.goal .reach path
  unfold target?
  generalize t.goal .reach path = a, t'.goal .reach path = b at hlead ⊢
  cases hlead <;> rfl

/-- The file at the end of the path is read. -/
theorem exists_read_of_target? {path : Path} {place : Place} (h : t.target? path = some place) :
    ∃ bytes, t.get? place = some (.file bytes) ∧ t.read path = .ok bytes := by
  obtain ⟨bytes, hgoal⟩ := target?_eq_some_iff.1 h
  refine ⟨bytes, get?_of_goal hgoal, ?_⟩
  rw [read, hgoal]

/-- What is read depends on the entry of the file alone. -/
theorem read_congr {path : Path} {place : Place} (h : t.target? path = some place) (h' : t'.target? path = some place)
    (hget : t'.get? place = t.get? place) : t'.read path = t.read path := by
  obtain ⟨bytes, hbytes, hread⟩ := exists_read_of_target? h
  obtain ⟨bytes', hbytes', hread'⟩ := exists_read_of_target? h'
  rw [hget, hbytes] at hbytes'
  cases hbytes'
  exact hread'.trans hread.symm

end Targets

end FileTree

/-- A text is read back from its bytes. -/
theorem Text.decode?_encode (s : Text) : Text.decode? s.encode = some s := by
  have hvalid : (Text.encode s).IsValidUTF8 := (String.ofList s).isValidUTF8
  rw [Text.decode?, String.fromUTF8?, dif_pos hvalid]
  exact congrArg some (String.toList_ofList)

end DocLint
