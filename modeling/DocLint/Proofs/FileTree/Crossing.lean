import DocLint.Proofs.FileTree.LastName

/-!
# Paths through the link that they end in

A walk in a tree that differs from another one at one place goes the same way, unless it comes to that place
(`FileTree.walk_of_not_comesTo`). A path can come through the link that its last name is (`FileTree.Crosses`), when the
link leads to a directory. Such a path leads to this directory, unless it follows more links than a path may
(`FileTree.goal_of_crosses`). Then the link is replaced by a file, and the path ends there before its last name
(`FileTree.readText_iff`).
-/

namespace DocLint
namespace FileTree

variable {t t' : FileTree} {place : Place}

/-- A walk looks up what is at `place`. -/
inductive ComesTo (t : FileTree) (place : Place) : (links : Nat) → Place → List Text → Prop
  | here {dir : Place} {part : Text} (links : Nat) (rest : List Text) : dir ++ [part] = place →
      Place.isName part = true → ComesTo t place links dir (part :: rest)
  | later {links left : Nat} {dir dir' : Place} {part : Text} {parts rest : List Text} :
      t.Moves links dir part left dir' parts → ComesTo t place left dir' (parts ++ rest) →
      ComesTo t place links dir (part :: rest)

/-- A walk comes to the link at `place`. -/
def Crosses (t : FileTree) (place : Place) (links : Nat) (dir : Place) (parts : List Text) : Prop :=
  (∃ target, t.get? place = some (.link target)) ∧ t.ComesTo place links dir parts

/-! ## Links that run out -/

section Links

/-- Walks with different numbers of links come to the same goal, if none of them runs out of links. -/
theorem walk_links (links links' : Nat) (dir : Place) (parts : List Text) :
    t.walk .reach links dir parts = .error .tooManyLinks ∨ t.walk .reach links' dir parts = .error .tooManyLinks ∨
      t.walk .reach links dir parts = t.walk .reach links' dir parts := by
  induction links, dir, parts using walk_induction (t := t) generalizing links' with
  | nil links dir => exact .inr (.inr (by rw [walk_nil, walk_nil]))
  | moves rest hmoves ih =>
    cases hmoves with
    | stay _ _ hstay =>
      rw [walk_stay hstay, walk_stay hstay]
      exact ih links'
    | up =>
      rw [walk_up, walk_up]
      exact ih links'
    | enter _ hname hget =>
      rw [(Moves.enter _ hname hget).walk, (Moves.enter links' hname hget).walk]
      exact ih links'
    | link _ hname hget =>
      cases links' with
      | zero =>
        rw [walk_name hname, walk_name hname, hget]
        exact .inr (.inl rfl)
      | succ links' =>
        rw [(Moves.link _ hname hget).walk, (Moves.link links' hname hget).walk]
        exact ih links'
  | halts rest hhalts =>
    cases hhalts with
    | refused _ _ hleads hup hname =>
      rw [walk_below rfl hleads hup, walk_below rfl hleads hup, hname]
      exact .inr (.inr rfl)
    | missing _ hname hget | file _ hname hget =>
      rw [walk_name hname, walk_name hname, hget]
      exact .inr (.inr rfl)
    | exhausted hname hget =>
      rw [walk_name hname, hget]
      exact .inl rfl

/-- What a path to a directory comes through is a directory. -/
theorem exists_of_walk_append {more : List Text} (links : Nat) (dir : Place) (parts : List Text)
    (h : t.walk .reach links dir (parts ++ more) = .ok (.entry place .directory)) :
    ∃ found, t.walk .reach links dir parts = .ok (.entry found .directory) := by
  induction links, dir, parts using walk_induction (t := t) with
  | nil links dir => exact ⟨dir, walk_nil links dir⟩
  | moves rest hmoves ih =>
    rw [List.cons_append, hmoves.walk, ← List.append_assoc] at h
    rw [hmoves.walk]
    exact ih h
  | halts rest hhalts => exact absurd h hhalts.not_directory

/-- A link on the way to a directory leads to a directory. -/
theorem ComesTo.exists_directory {dir : Place} {links : Nat} {parts : List Text} (h : t.ComesTo place links dir parts)
    {target : Path} (hget : t.get? place = some (.link target)) {found : Place}
    (hwalk : t.walk .reach links dir parts = .ok (.entry found .directory)) : ∃ links' dir' part behind,
      dir' ++ [part] = place ∧ t.walk .reach links' (target.start dir') target.parts = .ok (.entry behind .directory) := by
  induction h with
  | @here dir part links rest hplace hname =>
    subst hplace
    cases links with
    | zero =>
      rw [walk_name hname, hget] at hwalk
      cases hwalk
    | succ links =>
      rw [(Moves.link links hname hget).walk] at hwalk
      obtain ⟨behind, hbehind⟩ := exists_of_walk_append _ _ _ hwalk
      exact ⟨links, dir, part, behind, rfl, hbehind⟩
  | later hmoves _ ih =>
    rw [hmoves.walk] at hwalk
    exact ih hwalk

/-- **A path through its own link** leads to a directory, or follows too many links. -/
theorem goal_of_crosses {path : Path} (hnamed : t.NamedAt path place)
    (hnowhere : ∀ found entry, t.goal .reach path ≠ .ok (.entry found entry))
    (h : t.Crosses place maxLinks (path.start t.workDir) path.parts.dropLast) :
    t.goal .reach path = .error .tooManyLinks := by
  obtain ⟨hfault, front, dir, name, hparts, rfl, hname, hfront⟩ := hnamed
  rw [hparts, List.dropLast_concat] at h
  obtain ⟨⟨target, hget⟩, hcomes⟩ := h
  obtain ⟨links', dir', part, behind, hplace, hbehind⟩ := hcomes.exists_directory hget hfront
  obtain ⟨rfl, -⟩ := List.append_inj' hplace rfl
  obtain ⟨left, -, hwalk⟩ := walk_append _ _ _ hfront
  have hgoal : t.goal .reach path = t.walk .reach left dir' [name] := by
    rw [goal_eq_walk hfault, hparts]
    exact hwalk [name]
  cases left with
  | zero =>
    rw [hgoal, walk_name hname, hget]
    rfl
  | succ left =>
    rw [(Moves.link left hname hget).walk, List.append_nil] at hgoal
    rcases walk_links (t := t) left links' (target.start dir') target.parts with hlinks | hlinks | hlinks
    · rw [hgoal, hlinks]
    · rw [hbehind] at hlinks
      cases hlinks
    · rw [hlinks, hbehind] at hgoal
      exact absurd hgoal (hnowhere _ _)

end Links

/-! ## Trees that differ at one place -/

section Updated

variable {held : Option Entry}

/-- A part leads on as before, unless it is the name of the place. -/
theorem Moves.of_isUpdate (h : t.IsUpdate t' place held) {links left : Nat} {dir dir' : Place} {part : Text}
    {parts : List Text} (hmoves : t.Moves links dir part left dir' parts) :
    t'.Moves links dir part left dir' parts ∨ dir ++ [part] = place ∧ Place.isName part = true := by
  cases hmoves with
  | stay _ _ hstay => exact .inl (.stay _ _ hstay)
  | up => exact .inl (.up _ _)
  | @enter dir part _ hname hget =>
    by_cases heq : dir ++ [part] = place
    · exact .inr ⟨heq, hname⟩
    · exact .inl (.enter _ hname ((h.get?_of_ne heq).trans hget))
  | @link dir part target left hname hget =>
    by_cases heq : dir ++ [part] = place
    · exact .inr ⟨heq, hname⟩
    · exact .inl (.link _ hname ((h.get?_of_ne heq).trans hget))

/-- A name of another place leads to the same, if what is behind its entry does. -/
theorem walk_name_congr (h : t.IsUpdate t' place held) {ending : Ending} {part : Text} {rest : List Text}
    (hrefuses : ending.refuses rest = false) (hname : Place.isName part = true) {dir : Place}
    (hne : dir ++ [part] ≠ place) {links : Nat}
    (hdirectory : t.get? (dir ++ [part]) = some .directory →
      t'.walk ending links (dir ++ [part]) rest = t.walk ending links (dir ++ [part]) rest)
    (hlink : ∀ target, t.get? (dir ++ [part]) = some (.link target) →
      t'.enter ending links (target.start dir) (target.parts ++ rest) =
        t.enter ending links (target.start dir) (target.parts ++ rest)) :
    t'.walk ending links dir (part :: rest) = t.walk ending links dir (part :: rest) := by
  obtain ⟨hleads, hup, -⟩ := Path.isName_iff.1 hname
  rw [walk_below hrefuses hleads hup, walk_below hrefuses hleads hup, if_pos hname, if_pos hname, followName,
    followName, followEntry, followEntry, h.get?_of_ne hne]
  cases hget : t.get? (dir ++ [part]) with
  | none => rfl
  | some entry =>
    cases entry with
    | file bytes => rfl
    | directory => simp only [← walk_eq, hdirectory hget]
    | link target => simp only [hlink target hget]

/-- **A walk that does not come to the place** goes the same way in both trees. -/
theorem walk_of_not_comesTo (h : t.IsUpdate t' place held) {ending : Ending}
    (hrefuses : ∀ rest, ending.refuses rest = false) (links : Nat) (dir : Place) (parts : List Text)
    (hno : ¬ t.ComesTo place links dir parts) : t'.walk ending links dir parts = t.walk ending links dir parts := by
  induction links, dir, parts using walk_induction (t := t) with
  | nil links dir => rw [walk_nil, walk_nil]
  | @moves links left dir dir' part parts rest hmoves ih =>
    have hsame := ih fun hlater => hno (.later hmoves hlater)
    cases hmoves with
    | stay _ _ hstay => rwa [walk_stay hstay, walk_stay hstay]
    | up => rwa [walk_up, walk_up]
    | enter _ hname hget =>
      exact walk_name_congr h (hrefuses rest) hname (fun heq => hno (.here _ _ heq hname)) (fun _ => hsame)
        fun _ hlink => nomatch hget.symm.trans hlink
    | link left hname hget =>
      refine walk_name_congr h (hrefuses rest) hname (fun heq => hno (.here _ _ heq hname))
        (fun hdirectory => nomatch hget.symm.trans hdirectory) fun target hlink => ?_
      cases hget.symm.trans hlink
      exact hsame
  | halts rest hhalts =>
    cases hhalts with
    | refused _ _ hleads hup hname =>
      rw [walk_below (hrefuses rest) hleads hup, walk_below (hrefuses rest) hleads hup, hname,
        if_neg Bool.false_ne_true, if_neg Bool.false_ne_true]
    | missing _ hname hget | file _ hname hget =>
      exact walk_name_congr h (hrefuses rest) hname (fun heq => hno (.here _ _ heq hname))
        (fun hdirectory => nomatch hget.symm.trans hdirectory) fun _ hlink => nomatch hget.symm.trans hlink
    | exhausted hname hget =>
      exact walk_name_congr h (hrefuses rest) hname (fun heq => hno (.here _ _ heq hname))
        (fun hdirectory => nomatch hget.symm.trans hdirectory) fun _ _ => rfl

/-- A walk that comes to a free place leads to no entry. -/
theorem ComesTo.not_entry (hfree : t.get? place = none) {links : Nat} {dir : Place} {parts : List Text}
    (h : t.ComesTo place links dir parts) {found : Place} {entry : Entry} :
    t.walk .reach links dir parts ≠ .ok (.entry found entry) := by
  induction h with
  | here links rest hplace hname =>
    rw [walk_name hname, hplace, hfree]
    cases rest <;> exact nofun
  | later hmoves _ ih => rwa [hmoves.walk]

end Updated

/-! ## Trees with a file in place of something else -/

section Overwritten

variable {bytes : ByteArray}

/-- The trees differ in the file that the second one has at `place`, where the first one has no directory. -/
structure Overwrites (t t' : FileTree) (place : Place) (bytes : ByteArray) : Prop
    extends t.IsUpdate t' place (some (.file bytes)) where
  noDirectory : t.get? place ≠ some .directory

/-- A walk that comes to the file ends there. -/
theorem ComesTo.walk (h : t.Overwrites t' place bytes) {links : Nat} {dir : Place} {parts : List Text}
    (hcomes : t.ComesTo place links dir parts) (last : Text) :
    t'.walk .reach links dir (parts ++ [last]) = .error .notDirectory := by
  have hfile : ∀ links dir part rest, dir ++ [part] = place → Place.isName part = true → rest ≠ [] →
      t'.walk .reach links dir (part :: rest) = .error .notDirectory := by
    intro links dir part rest hplace hname hrest
    rw [walk_name hname, h.get?, if_pos hplace]
    exact if_neg (by simpa using hrest)
  have hne : ∀ rest, rest ++ [last] ≠ [] := fun rest => List.append_ne_nil_of_right_ne_nil _ (List.cons_ne_nil _ _)
  induction hcomes with
  | here links rest hplace hname => exact hfile _ _ _ _ hplace hname (hne rest)
  | @later _ _ _ _ _ _ rest hmoves _ ih =>
    rcases hmoves.of_isUpdate h.toIsUpdate with hmoves' | ⟨hplace, hname⟩
    · rw [List.cons_append, hmoves'.walk, ← List.append_assoc]
      exact ih
    · exact hfile _ _ _ _ hplace hname (hne rest)

/-- What a walk to a directory comes to is a link, if it is no directory. -/
theorem ComesTo.crosses {links : Nat} {dir : Place} {parts : List Text} (h : t.ComesTo place links dir parts)
    {found : Place} (hwalk : t.walk .reach links dir parts = .ok (.entry found .directory))
    (hdirectory : t.get? place ≠ some .directory) : t.Crosses place links dir parts := by
  refine ⟨?_, h⟩
  induction h with
  | @here dir part links rest hplace hname =>
    rw [walk_name hname, hplace] at hwalk
    cases hget : t.get? place with
    | none =>
      rw [hget] at hwalk
      cases rest <;> cases hwalk
    | some entry =>
      cases entry with
      | link target => exact ⟨target, rfl⟩
      | directory => exact absurd hget hdirectory
      | file bytes =>
        rw [hget] at hwalk
        cases rest <;> cases hwalk
  | later hmoves _ ih =>
    rw [hmoves.walk] at hwalk
    exact ih hwalk

end Overwritten

/-! ## Reading what was written -/

section Reading

variable {path : Path} {content : Text}

theorem readText_of_goal (h : t.goal .reach path = .ok (.entry place (.file content.encode))) :
    t.readText path = .ok content := by
  rw [readText, read, h]
  simp only [Text.decode?_encode]

/-- Every path to the file that is overwritten leads to the new text. -/
theorem readText_of_target? (h : t.target? path = some place)
    (hupdate : t.IsUpdate t' place (some (.file content.encode))) : t'.readText path = .ok content := by
  obtain ⟨bytes, hbytes, -⟩ := exists_read_of_target? h
  have htarget := ((hupdate.alike hbytes).target?_eq path).trans h
  obtain ⟨bytes', hgoal⟩ := target?_eq_some_iff.1 htarget
  have hbytes' := get?_of_goal hgoal
  rw [hupdate.get?, if_pos rfl] at hbytes'
  cases hbytes'
  exact readText_of_goal hgoal

/-- A path leads to the file under its last name, unless it comes through that name. -/
theorem NamedAt.goal_overwritten {bytes : ByteArray} (hnamed : t.NamedAt path place) (h : t.Overwrites t' place bytes)
    (hno : ¬ t.Crosses place maxLinks (path.start t.workDir) path.parts.dropLast) :
    t'.goal .reach path = .ok (.entry place (.file bytes)) := by
  obtain ⟨hfault, front, dir, name, hparts, rfl, hname, hfront⟩ := hnamed
  rw [hparts, List.dropLast_concat] at hno
  have hsame : t'.walk .reach maxLinks (path.start t.workDir) front = t.walk .reach maxLinks _ front :=
    walk_of_not_comesTo h.toIsUpdate (fun _ => rfl) _ _ _ fun hcomes => hno (hcomes.crosses hfront h.noDirectory)
  obtain ⟨left, -, hwalk⟩ := walk_append _ _ _ (hsame.trans hfront)
  rw [goal_eq_walk hfault, hparts, h.workDir, hwalk, walk_name hname, h.get?, if_pos rfl]
  rfl

/-- **What is written under the last name of a path is read back,** unless the path comes through that name. -/
theorem readText_iff (h : t.Overwrites t' place content.encode) (hnamed : t.NamedAt path place) :
    t'.readText path = .ok content ↔ ¬ t.Crosses place maxLinks (path.start t.workDir) path.parts.dropLast := by
  constructor
  · intro hread hcrosses
    obtain ⟨hfault, front, dir, name, hparts, rfl, hname, hfront⟩ := hnamed
    rw [hparts, List.dropLast_concat] at hcrosses
    have hgoal : t'.goal .reach path = t'.walk .reach maxLinks (path.start t.workDir) (front ++ [name]) := by
      rw [goal_eq_walk hfault, hparts, h.workDir]
    rw [readText, read, hgoal, hcrosses.2.walk h] at hread
    cases hread
  · exact fun hno => readText_of_goal (hnamed.goal_overwritten h hno)

end Reading
end FileTree
end DocLint
