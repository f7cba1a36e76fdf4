import DocLint.Proofs.FileTree.Crossing

/-!
# Writing one of several files

New content for a path that leads to a file is put at the place of that file, or in place of a link to it when the
system does not tell where the path leads (`FileTree.exists_destination?`). Either way the path leads to the new content
afterwards, and no path to another file is affected (`FileTree.replaceContent_of_target?`): a path that comes to what is
replaced ends in the same file (`FileTree.LeadsTo.of_comesTo`).
-/

namespace DocLint
namespace FileTree

variable {t t' : FileTree} {path : Path} {place file : Place}

/-! ## Walks that end in a file -/

section Files

/-- A walk that goes on where another one ends in a file ends there too, however many links it may follow. -/
theorem walk_behind_file {more : List Text} {bytes : ByteArray} {found : Place} {entry : Entry} (links : Nat)
    (dir : Place) (parts : List Text) (h : t.walk .reach links dir parts = .ok (.entry file (.file bytes)))
    {links' : Nat} (hwalk : t.walk .reach links' dir (parts ++ more) = .ok (.entry found entry)) :
    found = file ∧ entry = .file bytes := by
  induction links, dir, parts using walk_induction (t := t) generalizing links' with
  | nil links dir =>
    rw [walk_nil] at h
    cases h
  | @moves links left dir dir' part parts rest hmoves ih =>
    rw [hmoves.walk] at h
    rw [List.cons_append] at hwalk
    cases hmoves with
    | stay _ _ hstay =>
      rw [walk_stay hstay] at hwalk
      exact ih h hwalk
    | up =>
      rw [walk_up] at hwalk
      exact ih h hwalk
    | enter _ hname hget =>
      rw [(Moves.enter links' hname hget).walk] at hwalk
      exact ih h hwalk
    | link _ hname hget =>
      cases links' with
      | zero =>
        rw [walk_name hname, hget] at hwalk
        cases hwalk
      | succ links' =>
        rw [(Moves.link links' hname hget).walk, ← List.append_assoc] at hwalk
        exact ih h hwalk
  | halts rest hhalts =>
    obtain ⟨_, heq, rfl, rfl, hname, hget⟩ := hhalts.of_walk_eq h
    cases heq
    rw [List.cons_append, walk_name hname, hget, List.nil_append] at hwalk
    cases more with
    | nil =>
      cases hwalk
      exact ⟨rfl, rfl⟩
    | cons => cases hwalk

/-- The directory before the last name of a path to a file. -/
theorem exists_of_walk_concat {last : Text} {bytes : ByteArray} (links : Nat) (dir : Place) (front : List Text)
    (h : t.walk .reach links dir (front ++ [last]) = .ok (.entry file (.file bytes))) :
    Place.isName last = true ∧ ∃ found, t.walk .reach links dir front = .ok (.entry found .directory) := by
  induction links, dir, front using walk_induction (t := t) with
  | nil links dir =>
    refine ⟨?_, dir, walk_nil links dir⟩
    by_cases hleads : Path.leads last = true
    swap
    · rw [List.nil_append, walk_stay (Bool.eq_false_iff.2 hleads), walk_nil] at h
      cases h
    by_cases hup : last = Path.above
    · rw [hup, List.nil_append, walk_up, walk_nil] at h
      cases h
    rw [List.nil_append, walk_below rfl hleads hup] at h
    by_contra hname
    rw [if_neg hname] at h
    cases h
  | moves rest hmoves ih =>
    rw [List.cons_append, hmoves.walk, ← List.append_assoc] at h
    rw [hmoves.walk]
    exact ih h
  | halts rest hhalts =>
    obtain ⟨cause, hcause⟩ := hhalts.walk_more
    have herror := hcause (rest ++ [last]) (List.append_ne_nil_of_right_ne_nil _ (List.cons_ne_nil _ _))
    rw [List.cons_append, herror] at h
    cases h

/-- A path to a file ends in the name of a place that holds the file or a link. -/
theorem exists_namedAt_of_target? (h : t.target? path = some file) : ∃ place, t.NamedAt path place := by
  obtain ⟨bytes, hgoal⟩ := target?_eq_some_iff.1 h
  obtain ⟨front, last, hparts⟩ := path.exists_parts_eq
  have hwalk := walk_of_goal hgoal
  rw [hparts] at hwalk
  obtain ⟨hname, dir, hfront⟩ := exists_of_walk_concat maxLinks _ _ hwalk
  exact ⟨dir ++ [last], fault?_of_goal hgoal, front, dir, last, hparts, rfl, hname, hfront⟩

end Files

/-! ## What leads to a file -/

section LeadsTo

/-- A place holds the file at `file`, or a link that leads to it. -/
inductive LeadsTo (t : FileTree) (file : Place) : Place → Prop
  | self {bytes : ByteArray} : t.get? file = some (.file bytes) → LeadsTo t file file
  | link {dir : Place} {part : Text} {target : Path} {bytes : ByteArray} (links : Nat) :
      t.get? (dir ++ [part]) = some (.link target) →
      t.walk .reach links (target.start dir) target.parts = .ok (.entry file (.file bytes)) →
      LeadsTo t file (dir ++ [part])

theorem LeadsTo.not_directory (h : t.LeadsTo file place) : ∃ entry, t.get? place = some entry ∧ entry ≠ .directory := by
  cases h with
  | self hget => exact ⟨_, hget, nofun⟩
  | link _ hget _ => exact ⟨_, hget, nofun⟩

/-- **A walk that comes to what leads to a file** ends in that file. -/
theorem LeadsTo.of_comesTo (h : t.LeadsTo file place) {links : Nat} {dir : Place} {parts : List Text}
    (hcomes : t.ComesTo place links dir parts) {found : Place} {entry : Entry}
    (hwalk : t.walk .reach links dir parts = .ok (.entry found entry)) : found = file ∧ ∃ bytes, entry = .file bytes := by
  induction hcomes with
  | @here dir part links rest hplace hname =>
    cases h with
    | self hget =>
      rw [walk_name hname, hplace, hget] at hwalk
      cases rest <;> cases hwalk
      exact ⟨rfl, _, rfl⟩
    | link links' hget htarget =>
      obtain ⟨rfl, hpart⟩ := List.append_inj' hplace rfl
      cases hpart
      cases links with
      | zero =>
        rw [walk_name hname, hget] at hwalk
        cases hwalk
      | succ links =>
        rw [(Moves.link links hname hget).walk] at hwalk
        obtain ⟨hfound, hentry⟩ := walk_behind_file links' _ _ htarget hwalk
        exact ⟨hfound, _, hentry⟩
  | later hmoves _ ih =>
    rw [hmoves.walk] at hwalk
    exact ih hwalk

/-- What leads to a file is no other file. -/
theorem LeadsTo.ne_of_target? (h : t.LeadsTo file place) {other : Place} (hother : t.target? path = some other)
    (hne : other ≠ file) : other ≠ place := by
  rintro rfl
  obtain ⟨bytes, hgoal⟩ := target?_eq_some_iff.1 hother
  cases h with
  | self => exact hne rfl
  | link _ hget _ => exact nomatch hget.symm.trans (get?_of_goal hgoal)

/-- What the last name of a path holds leads to where the path leads. -/
theorem NamedAt.leadsTo (hnamed : t.NamedAt path place) (h : t.target? path = some file) : t.LeadsTo file place := by
  obtain ⟨bytes, hgoal⟩ := target?_eq_some_iff.1 h
  by_cases hlink : ∃ target, t.get? place = some (.link target)
  · obtain ⟨target, hget⟩ := hlink
    obtain ⟨hfault, front, dir, name, hparts, rfl, hname, hfront⟩ := hnamed
    obtain ⟨left, -, hwalk⟩ := walk_append _ _ _ hfront
    have hlast := walk_of_goal hgoal
    rw [hparts, hwalk] at hlast
    cases left with
    | zero =>
      rw [walk_name hname, hget] at hlast
      cases hlast
    | succ left =>
      rw [(Moves.link left hname hget).walk, List.append_nil] at hlast
      exact .link left hget hlast
  · have hheld := hnamed.goal_reach fun target hget => hlink ⟨target, hget⟩
    rw [hgoal, held] at hheld
    cases hget : t.get? place with
    | none =>
      rw [hget] at hheld
      cases hheld
    | some entry =>
      rw [hget] at hheld
      cases hheld
      exact .self hget

end LeadsTo

/-! ## Where new content goes -/

section Destinations

/-- The place where new content for the path is put. -/
def destination? (t : FileTree) (path : Path) : Option Place :=
  (t.destination (.ofAnswer path (t.resolve? path))).toOption

/-- **New content for a file** is put at its place, or in place of the link to it that has the last name of the path. -/
theorem exists_destination? (h : t.target? path = some file) : ∃ place, t.LeadsTo file place ∧
    t.destination (.ofAnswer path (t.resolve? path)) = .ok place ∧
      (place = file ∨ t.NamedAt path place ∧ t.TooFar path) := by
  obtain ⟨bytes, hgoal⟩ := target?_eq_some_iff.1 h
  cases hresolve : t.resolve? path with
  | some found =>
    obtain ⟨entry, hwalk, -⟩ := resolve?_eq_some hresolve
    cases hwalk.symm.trans (walk_of_goal hgoal)
    exact ⟨file, .self (get?_of_goal hgoal), rfl, .inl rfl⟩
  | none =>
    obtain ⟨place, hnamed⟩ := exists_namedAt_of_target? h
    have hfar := (resolve?_of_goal hgoal).resolve_left (by simp [hresolve])
    exact ⟨place, hnamed.leadsTo h, hnamed.destination, .inr ⟨hnamed, hfar⟩⟩

/-- It is put at the place of the file, unless this is too far. -/
theorem destination?_eq_target? (h : t.target? path = some file) (hfar : ¬ t.TooFar path) :
    t.destination? path = t.target? path := by
  obtain ⟨place, -, hdestination, hplace⟩ := exists_destination? h
  rw [destination?, hdestination, h, hplace.resolve_right fun hnamed => hfar hnamed.2]
  rfl

/-- The path leads to its file, and its content goes to the same place, in both trees. -/
structure Unaffected (t t' : FileTree) (path : Path) (file : Place) : Prop where
  target? : t'.target? path = some file
  destination? : t'.destination? path = t.destination? path
  get? : t'.get? file = t.get? file

theorem Unaffected.refl (h : t.target? path = some file) : t.Unaffected t path file := ⟨h, rfl, rfl⟩

theorem Unaffected.trans {t'' : FileTree} (h : t.Unaffected t' path file) (h' : t'.Unaffected t'' path file) :
    t.Unaffected t'' path file :=
  ⟨h'.target?, h'.destination?.trans h.destination?, h'.get?.trans h.get?⟩

theorem Unaffected.read_eq (h : t.Unaffected t' path file) (hfile : t.target? path = some file) :
    t'.read path = t.read path := read_congr hfile h.target? h.get?

/-- **Paths to other files** are not affected when something that leads to a file is replaced. -/
theorem LeadsTo.unaffected (h : t.LeadsTo file place) {bytes : ByteArray} (hover : t.Overwrites t' place bytes)
    {other : Place} (hother : t.target? path = some other) (hne : other ≠ file) : t.Unaffected t' path other := by
  obtain ⟨old, hgoal⟩ := target?_eq_some_iff.1 hother
  have hno : ¬ t.ComesTo place maxLinks (path.start t.workDir) path.parts :=
    fun hcomes => hne (h.of_comesTo hcomes (walk_of_goal hgoal)).1
  have hwalk : ∀ {ending : Ending}, (∀ rest, ending.refuses rest = false) →
      t'.walk ending maxLinks (path.start t.workDir) path.parts =
        t.walk ending maxLinks (path.start t.workDir) path.parts :=
    fun hrefuses => walk_of_not_comesTo hover.toIsUpdate hrefuses _ _ _ hno
  have hgoals : ∀ {ending : Ending}, (∀ rest, ending.refuses rest = false) → t'.goal ending path = t.goal ending path := by
    intro ending hrefuses
    rw [goal, goal, hover.workDir, hwalk hrefuses]
  have hresolve : t'.resolve? path = t.resolve? path := by
    rw [resolve?, resolve?, hover.workDir, hwalk fun _ => rfl]
  refine ⟨?_, ?_, ?_⟩
  · rw [target?, hgoals fun _ => rfl]
    exact hother
  · have hnamed : t'.destination (.named path) = t.destination (.named path) := by
      rw [destination, destination, hgoals fun _ => rfl]
    rw [destination?, destination?, hresolve]
    cases t.resolve? path with
    | some found => rfl
    | none => exact congrArg Except.toOption hnamed
  · exact hover.toIsUpdate.get?_of_ne (h.ne_of_target? hother hne)

/-- The tree comes from replacing the content of the file at `file` by the path. -/
structure Writes (t t' : FileTree) (path : Path) (file place : Place) (content : Text) : Prop where
  leadsTo : t.LeadsTo file place
  destination? : t.destination? path = some place
  overwrites : t.Overwrites t' place content.encode
  /-- The path leads to the new content. -/
  target? : t'.target? path = some place

theorem Writes.read_eq {content : Text} (h : t.Writes t' path file place content) :
    t'.read path = .ok content.encode := by
  obtain ⟨bytes, hget, hread⟩ := exists_read_of_target? h.target?
  rw [h.overwrites.get?, if_pos rfl] at hget
  cases hget
  exact hread

/-- **Replacing the content of a file** cannot fail. -/
theorem replaceContent_of_target? (h : t.target? path = some file) (content : Text) :
    ∃ t' place, t.replaceContent path content = .ok t' ∧ t.Writes t' path file place content := by
  obtain ⟨place, hlead, hdestination, hplace⟩ := exists_destination? h
  obtain ⟨entry, hget, hno⟩ := hlead.not_directory
  have hadmits : t.Admits place (.file content.encode) := admits_file hget hno _
  have hover : t.Overwrites (t.put place _ hadmits) place content.encode := by
    refine ⟨isUpdate_put hadmits, ?_⟩
    rw [hget]
    exact fun heq => hno (Option.some.inj heq)
  refine ⟨t.put place _ hadmits, place, ?_, hlead, ?_, hover, ?_⟩
  · simp only [replaceContent, replace, hdestination, put?, dif_pos hadmits]
  · rw [destination?, hdestination]
    rfl
  · rcases hplace with rfl | ⟨hnamed, -⟩
    · obtain ⟨bytes, hbytes, -⟩ := exists_read_of_target? h
      exact ((hover.toIsUpdate.alike hbytes).target?_eq path).trans h
    · refine target?_eq_some_iff.2 ⟨_, hnamed.goal_overwritten hover ?_⟩
      rintro ⟨-, hcomes⟩
      obtain ⟨-, front, dir, name, hparts, -, -, hfront⟩ := hnamed
      rw [hparts, List.dropLast_concat] at hcomes
      obtain ⟨-, bytes, hfile⟩ := hlead.of_comesTo hcomes hfront
      cases hfile

end Destinations
end FileTree
end DocLint
