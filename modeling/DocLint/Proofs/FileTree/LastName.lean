import Mathlib.Data.List.DropRight
import DocLint.FileTree.Replacement
import DocLint.Proofs.Text
import DocLint.Proofs.FileTree.Joined

/-!
# The last name of a path

A path that is not followed at its last part leads to what this part says in the directory that the parts before it
lead to (`FileTree.walk_inspect_concat`). So it leads to a place that holds no directory exactly if its last part is
the name of that place, and the parts before it lead to the directory (`FileTree.NamedAt`).
-/

namespace DocLint

/-! ## The path of the directory -/

namespace Path

section Parents

/-- Parts of a path make up a path again. -/
theorem parts_ofParts {p : Path} {kept : List Text} (hne : kept ≠ []) (h : ∀ part ∈ kept, part ∈ p.parts) :
    (ofParts kept).parts = kept :=
  List.splitOn_intercalate '/' (fun part hpart => Text.not_mem_of_mem_splitOn (h part hpart)) hne

/-- Every path has a last part. -/
theorem exists_parts_eq (p : Path) : ∃ front last, p.parts = front ++ [last] :=
  (List.eq_nil_or_concat' p.parts).resolve_left (List.splitOnP_ne_nil _ _)

theorem ofParts_parts (p : Path) : ofParts p.parts = p := by
  rw [ofParts, parts, List.intercalate_splitOn]

theorem ofParts_append {parts : List Text} (hne : parts ≠ []) : ∀ {kept : List Text}, kept ≠ [] →
    (ofParts (kept ++ parts)).text = (ofParts kept).text ++ '/' :: (ofParts parts).text
  | [], h => absurd rfl h
  | [part], _ => by
    obtain ⟨first, others, rfl⟩ := List.exists_cons_of_ne_nil hne
    simp [ofParts, List.intercalate_cons_cons]
  | part :: part' :: kept, _ => by
    have ih := ofParts_append hne (List.cons_ne_nil part' kept)
    simp only [ofParts, List.cons_append, List.intercalate_cons_cons] at ih ⊢
    rw [ih]
    simp

/-- The longest beginning of a path ends in its last part that leads somewhere. -/
theorem beginnings_cases : ∀ up : List Text, (∃ stays part rest more, up = stays ++ part :: rest ∧
    (∀ s ∈ stays, leads s = false) ∧ leads part = true ∧ beginnings up = ofParts (part :: rest).reverse :: more) ∨
      (∀ s ∈ up, leads s = false) ∧ beginnings up = []
  | [] => .inr ⟨fun _ h => absurd h List.not_mem_nil, rfl⟩
  | part :: up => by
    by_cases hpart : leads part = true
    · exact .inl ⟨[], part, up, beginnings up, rfl, fun _ h => absurd h List.not_mem_nil, hpart, if_pos hpart⟩
    · have hbeginnings : beginnings (part :: up) = beginnings up := if_neg hpart
      have hstay : leads part = false := Bool.eq_false_iff.2 hpart
      rw [hbeginnings]
      rcases beginnings_cases up with ⟨stays, last, rest, more, rfl, hstays, hlast, heq⟩ | ⟨hstays, heq⟩
      · exact .inl ⟨part :: stays, last, rest, more, rfl, List.forall_mem_cons.2 ⟨hstay, hstays⟩, hlast, heq⟩
      · exact .inr ⟨List.forall_mem_cons.2 ⟨hstay, hstays⟩, heq⟩

/-- The parent of a path ends in the part before the last one, where parts that lead nowhere do not count. -/
theorem parent_cases {p : Path} {front : List Text} {name : Text} (hparts : p.parts = front ++ [name])
    (hname : leads name = true) :
    (∃ kept stays, front = kept ++ stays ∧ (∀ s ∈ stays, leads s = false) ∧ p.parent.parts = kept ∧
      ∃ rest, p.parent.text ≠ [] ∧ p.text = p.parent.text ++ '/' :: rest) ∨
    (∀ s ∈ front, leads s = false) ∧ p.parent = if p.isAbsolute then ⟨['/']⟩ else ⟨here⟩ := by
  have hparents : p.parents = beginnings front.reverse := by
    have hbeginnings : beginnings (name :: front.reverse) = ofParts (name :: front.reverse).reverse ::
        beginnings front.reverse := if_pos hname
    rw [parents, hparts, List.reverse_append, List.reverse_singleton, List.singleton_append, hbeginnings,
      List.tail_cons]
  rcases beginnings_cases front.reverse with ⟨stays, part, rest, more, hup, hstays, hpart, heq⟩ | ⟨hstays, heq⟩
  · have hfront : front = (rest.reverse ++ [part]) ++ stays.reverse := by
      rw [← List.reverse_reverse front, hup, List.reverse_append, List.reverse_cons]
    have hparent : p.parent = ofParts (rest.reverse ++ [part]) := by
      rw [parent, hparents, heq, List.headD_cons, List.reverse_cons]
    have hkept : rest.reverse ++ [part] ≠ [] := List.append_ne_nil_of_right_ne_nil _ (List.cons_ne_nil _ _)
    have hmem : ∀ s ∈ rest.reverse ++ [part], s ∈ p.parts := fun s hs => by
      rw [hparts, hfront]
      exact List.mem_append_left _ (List.mem_append_left _ hs)
    refine .inl ⟨_, stays.reverse, hfront, fun s hs => hstays s (List.mem_reverse.1 hs), ?_,
      (ofParts (stays.reverse ++ [name])).text, ?_, ?_⟩
    · rw [hparent, parts_ofParts hkept hmem]
    · have hne : part ≠ [] := by
        rintro rfl
        cases hpart
      rw [hparent]
      by_cases hrest : rest = []
      · rw [hrest]
        simpa [ofParts] using hne
      · rw [ofParts_append (List.cons_ne_nil _ _) (by simpa using hrest)]
        simp
    · rw [hparent, ← ofParts_append (by simp) hkept, ← List.append_assoc, ← hfront, ← hparts, ofParts_parts]
  · have hany : p.parts.any leads = true := List.any_eq_true.2 ⟨name, by simp [hparts], hname⟩
    refine .inr ⟨fun s hs => hstays s (List.mem_reverse.2 hs), ?_⟩
    rw [parent, hparents, heq, List.headD_nil, hany, Bool.and_true]

theorem byteCount_le_of_fault? {p : Path} (h : p.fault? = none) : p.text.byteCount ≤ maxBytes := by
  unfold fault? at h
  split_ifs at h with _ _ hsize
  exact Nat.not_lt.1 hsize

/-- What is before a slash in a path that can be used can be used too. -/
theorem fault?_of_append {p q : Path} {rest : Text} (hfault : p.fault? = none) (hne : q.text ≠ [])
    (htext : p.text = q.text ++ '/' :: rest) : q.fault? = none := by
  have hnul : q.holdsNul = false := by
    have hp := holdsNul_of_fault? hfault
    simp only [holdsNul, htext, List.contains_eq_mem, decide_eq_false_iff_not, List.mem_append, not_or] at hp ⊢
    exact hp.1
  have hsize : ¬ maxBytes < q.text.byteCount := by
    have hp := byteCount_le_of_fault? hfault
    rw [htext, Text.byteCount_append] at hp
    omega
  rw [fault?, hnul, List.isEmpty_eq_false_iff.2 hne, if_neg Bool.false_ne_true, if_neg Bool.false_ne_true, if_neg hsize]

theorem isAbsolute_of_append {p q : Path} {rest : Text} (hne : q.text ≠ []) (htext : p.text = q.text ++ '/' :: rest) :
    p.isAbsolute = q.isAbsolute := by
  rw [isAbsolute, isAbsolute, htext, List.head?_append_of_ne_nil _ hne]

end Parents

end Path

namespace FileTree

variable {t t' : FileTree}

/-! ## Walks that keep a link at their end -/

section Inspection

/-- What a place holds, or that it is free. -/
def held (t : FileTree) (place : Place) : Goal :=
  match t.get? place with
  | some entry => .entry place entry
  | none => .vacant place

theorem place_held (place : Place) : (t.held place).place = place := by
  unfold held
  cases t.get? place <;> rfl

/-- A name that other parts follow leads to the entry of that name. -/
theorem walk_inspect_name {part : Text} {rest : List Text} (h : Place.isName part = true) (hrest : rest ≠ [])
    (links : Nat) (dir : Place) : t.walk .inspect links dir (part :: rest) =
      match t.get? (dir ++ [part]) with
      | some .directory => t.walk .inspect links (dir ++ [part]) rest
      | some (.link target) => t.enter .inspect links (target.start dir) (target.parts ++ rest)
      | some (.file _) => .error .notDirectory
      | none => .error .notFound := by
  obtain ⟨hleads, hup, -⟩ := Path.isName_iff.1 h
  have hlast : Ending.inspect.isLast rest = false := List.isEmpty_eq_false_iff.2 hrest
  rw [walk_below rfl hleads hup, if_pos h, followName_eq rfl]
  simp only [followEntry, hlast]
  cases t.get? (dir ++ [part]) with
  | none => rfl
  | some entry =>
    cases entry with
    | directory => rw [walk_eq]
    | file | link => rfl

/-- A part that other parts follow leads on as if links were followed at the end. -/
theorem Moves.walk_inspect {links left : Nat} {dir dir' : Place} {part : Text} {parts rest : List Text}
    (h : t.Moves links dir part left dir' parts) (hrest : rest ≠ []) :
    t.walk .inspect links dir (part :: rest) = t.walk .inspect left dir' (parts ++ rest) := by
  cases h with
  | stay _ _ hstay => exact walk_stay hstay links dir rest
  | up => exact walk_up links dir rest
  | enter _ hname hget => rw [walk_inspect_name hname hrest, hget, List.nil_append]
  | link _ hname hget =>
    rw [walk_inspect_name hname hrest, hget]
    rfl

/-- What the last part of a path says in a directory. -/
def lastFrom (t : FileTree) (last : Text) (dir : Place) : Except AccessError Goal :=
  if !Path.leads last then .ok (.entry dir .directory)
  else if last = Path.above then .ok (.entry dir.dropLast .directory)
  else if Place.isName last then .ok (t.held (dir ++ [last]))
  else .error .nameTooLong

/-- What the last part of a path says about what the parts before it lead to. -/
def lastBehind (t : FileTree) (last : Text) : Goal → Except AccessError Goal
  | .entry place .directory => t.lastFrom last place
  | .entry .. => .error .notDirectory
  | .vacant _ => .error .notFound

theorem walk_inspect_singleton (links : Nat) (dir : Place) (last : Text) :
    t.walk .inspect links dir [last] = t.lastFrom last dir := by
  by_cases hleads : Path.leads last = true
  swap
  · rw [walk_stay (Bool.eq_false_iff.2 hleads), walk_nil, lastFrom.eq_def, Bool.eq_false_iff.2 hleads]
    rfl
  by_cases hup : last = Path.above
  · rw [hup, walk_up, walk_nil]
    rfl
  rw [walk_below rfl hleads hup, lastFrom.eq_def, hleads, Bool.not_true, if_neg Bool.false_ne_true, if_neg hup]
  refine ite_congr rfl (fun _ => ?_) fun _ => rfl
  rw [followName_eq rfl]
  simp only [followEntry, held]
  cases t.get? (dir ++ [last]) with
  | none => rfl
  | some entry =>
    cases entry with
    | directory => rw [← walk_eq, walk_nil]
    | file | link => rfl

/-- **A path that is not followed at its end** leads to what its last part says in the directory before it. -/
theorem walk_inspect_concat (last : Text) (links : Nat) (dir : Place) (front : List Text) :
    t.walk .inspect links dir (front ++ [last]) = (t.walk .reach links dir front).bind (t.lastBehind last) := by
  induction links, dir, front using walk_induction (t := t) with
  | nil links dir =>
    rw [List.nil_append, walk_nil]
    exact walk_inspect_singleton links dir last
  | moves rest hmoves ih =>
    rw [List.cons_append, hmoves.walk_inspect (List.append_ne_nil_of_right_ne_nil _ (List.cons_ne_nil _ _)),
      hmoves.walk, ← ih, List.append_assoc]
  | halts rest hhalts =>
    have hne : rest ++ [last] ≠ [] := List.append_ne_nil_of_right_ne_nil _ (List.cons_ne_nil _ _)
    rw [List.cons_append]
    cases hhalts with
    | refused links dir hleads hup hname =>
      rw [walk_below rfl hleads hup, walk_below rfl hleads hup, hname]
      rfl
    | missing links hname hget =>
      rw [walk_inspect_name hname hne, walk_name hname, hget]
      cases rest <;> rfl
    | file links hname hget =>
      rw [walk_inspect_name hname hne, walk_name hname, hget]
      cases rest <;> rfl
    | exhausted hname hget =>
      rw [walk_inspect_name hname hne, walk_name hname, hget]
      rfl

end Inspection

/-! ## The place of the last name -/

section NamedAt

variable {path : Path} {place : Place}

/-- The last part of the path is the name of the place, and the parts before it lead to the directory it is in. -/
def NamedAt (t : FileTree) (path : Path) (place : Place) : Prop :=
  path.fault? = none ∧ ∃ front dir name, path.parts = front ++ [name] ∧ place = dir ++ [name] ∧
    Place.isName name = true ∧ t.walk .reach maxLinks (path.start t.workDir) front = .ok (.entry dir .directory)

theorem lastFrom_name {name : Text} (h : Place.isName name = true) (dir : Place) :
    t.lastFrom name dir = .ok (t.held (dir ++ [name])) := by
  obtain ⟨hleads, hup, -⟩ := Path.isName_iff.1 h
  rw [lastFrom.eq_def, hleads, Bool.not_true, if_neg Bool.false_ne_true, if_neg hup, if_pos h]

/-- A part that leads to a goal stays, goes up, or is a name. -/
theorem lastFrom_eq_ok {last : Text} {dir : Place} {goal : Goal} (h : t.lastFrom last dir = .ok goal) :
    (Path.leads last = false ∧ goal = .entry dir .directory) ∨
    (last = Path.above ∧ goal = .entry dir.dropLast .directory) ∨
    (Place.isName last = true ∧ goal = t.held (dir ++ [last])) := by
  rw [lastFrom.eq_def] at h
  split_ifs at h with hleads hup hname <;> cases h
  · exact .inl ⟨by simpa using hleads, rfl⟩
  · exact .inr (.inl ⟨hup, rfl⟩)
  · exact .inr (.inr ⟨hname, rfl⟩)

/-- A goal of the last part is one from the directory that the parts before it lead to. -/
theorem lastBehind_eq_ok {last : Text} {front goal : Goal} (h : t.lastBehind last front = .ok goal) :
    ∃ dir, front = .entry dir .directory ∧ t.lastFrom last dir = .ok goal := by
  cases front with
  | vacant place => cases h
  | entry place entry =>
    cases entry with
    | directory => exact ⟨place, rfl, h⟩
    | file | link => cases h

/-- The parts before the last one, where they lead, and what the last one leads to from there. -/
theorem exists_of_goal_inspect {goal : Goal} (h : t.goal .inspect path = .ok goal) : ∃ front last dir,
    path.parts = front ++ [last] ∧
      t.walk .reach maxLinks (path.start t.workDir) front = .ok (.entry dir .directory) ∧
      t.lastFrom last dir = .ok goal := by
  obtain ⟨front, last, hparts⟩ := path.exists_parts_eq
  have hgoal := walk_of_goal h
  rw [hparts] at hgoal
  have hwalk := hgoal.symm.trans (walk_inspect_concat last maxLinks (path.start t.workDir) front)
  cases hfront : t.walk .reach maxLinks (path.start t.workDir) front with
  | error cause =>
    rw [hfront] at hwalk
    cases hwalk
  | ok found =>
    rw [hfront] at hwalk
    obtain ⟨dir, rfl, hlast⟩ := lastBehind_eq_ok hwalk.symm
    exact ⟨front, last, dir, hparts, hfront, hlast⟩

theorem NamedAt.goal_inspect (h : t.NamedAt path place) : t.goal .inspect path = .ok (t.held place) := by
  obtain ⟨hfault, front, dir, name, hparts, rfl, hname, hfront⟩ := h
  rw [goal_eq_walk hfault, hparts, walk_inspect_concat, hfront]
  exact lastFrom_name hname dir

/-- **Where the last name of a path is:** a path that is not followed at its end leads there, unless it leads to a
directory. -/
theorem exists_namedAt {goal : Goal} (h : t.goal .inspect path = .ok goal) (hno : ∀ dir, goal ≠ .entry dir .directory) :
    ∃ place, t.NamedAt path place ∧ goal = t.held place := by
  obtain ⟨front, last, dir, hparts, hfront, hlast⟩ := exists_of_goal_inspect h
  rcases lastFrom_eq_ok hlast with ⟨-, rfl⟩ | ⟨-, rfl⟩ | ⟨hname, rfl⟩
  · exact absurd rfl (hno _)
  · exact absurd rfl (hno _)
  · exact ⟨_, ⟨fault?_of_goal h, front, dir, last, hparts, rfl, hname, hfront⟩, rfl⟩

/-- Where a path leads that is followed to its end too. -/
theorem NamedAt.goal_reach (h : t.NamedAt path place) (hlink : ∀ target, t.get? place ≠ some (.link target)) :
    t.goal .reach path = .ok (t.held place) := by
  obtain ⟨hfault, front, dir, name, hparts, rfl, hname, hfront⟩ := h
  obtain ⟨left, -, hwalk⟩ := walk_append _ _ _ hfront
  rw [goal_eq_walk hfault, hparts, hwalk, walk_name hname, held]
  cases hget : t.get? (dir ++ [name]) with
  | none => rfl
  | some entry =>
    cases entry with
    | file bytes => rfl
    | directory => exact walk_nil left _
    | link target => exact absurd hget (hlink target)

end NamedAt

/-! ## The directory of the last name -/

section Parent

variable {path : Path} {place : Place}

/-- Parts that lead nowhere do not matter behind the path of a directory. -/
theorem walk_append_stays {stays : List Text} (hstays : ∀ s ∈ stays, Path.leads s = false) (links : Nat) (dir : Place)
    (parts : List Text) (h : t.walk .reach links dir (parts ++ stays) = .ok (.entry place .directory)) :
    t.walk .reach links dir parts = .ok (.entry place .directory) := by
  induction links, dir, parts using walk_induction (t := t) with
  | nil links dir =>
    rw [List.nil_append] at h
    rw [walk_nil, ← h]
    clear h
    induction stays with
    | nil => exact (walk_nil links dir).symm
    | cons s stays ih =>
      obtain ⟨hs, hrest⟩ := List.forall_mem_cons.1 hstays
      rw [walk_stay hs]
      exact ih hrest
  | moves rest hmoves ih =>
    rw [List.cons_append, hmoves.walk, ← List.append_assoc] at h
    rw [hmoves.walk]
    exact ih h
  | halts rest hhalts => exact absurd h hhalts.not_directory

/-- The top and the working directory have paths. -/
theorem goal_parentless (t : FileTree) (absolute : Bool) :
    t.goal .reach (if absolute then ⟨['/']⟩ else ⟨Path.here⟩) =
      .ok (.entry (if absolute then [] else t.workDir) .directory) := by
  cases absolute with
  | true =>
    have htop : t.goal .reach ⟨['/']⟩ = t.walk .reach maxLinks [] [[], []] := rfl
    simp only [if_true]
    rw [htop, walk_stay rfl, walk_stay rfl, walk_nil]
  | false =>
    have hhere : t.goal .reach ⟨Path.here⟩ = t.walk .reach maxLinks t.workDir [Path.here] := rfl
    simp only [Bool.false_eq_true, if_false]
    rw [hhere, walk_stay rfl, walk_nil]

/-- **The directory of the last name** is where the parent of the path leads. -/
theorem NamedAt.goal_parent (h : t.NamedAt path place) :
    t.goal .reach path.parent = .ok (.entry place.dropLast .directory) := by
  obtain ⟨hfault, front, dir, name, hparts, rfl, hname, hfront⟩ := h
  have hleads := (Path.isName_iff.1 hname).1
  rw [List.dropLast_concat]
  rcases Path.parent_cases hparts hleads with ⟨kept, stays, rfl, hstays, hkept, rest, hne, htext⟩ | ⟨hstays, hparent⟩
  · have hstart : path.parent.start t.workDir = path.start t.workDir := by
      rw [Path.start, Path.start, Path.isAbsolute_of_append hne htext]
    rw [goal_eq_walk (Path.fault?_of_append hfault hne htext), hstart, hkept]
    exact walk_append_stays hstays _ _ _ hfront
  · have hstart : t.walk .reach maxLinks (path.start t.workDir) [] = .ok (.entry dir .directory) :=
      walk_append_stays hstays _ _ _ hfront
    rw [walk_nil] at hstart
    rw [hparent, goal_parentless]
    exact hstart

end Parent

/-! ## What is replaced under the last name -/

section Replaced

variable {path : Path} {place : Place}

theorem NamedAt.destination (h : t.NamedAt path place) : t.destination (.named path) = .ok place := by
  rw [FileTree.destination, h.goal_inspect]
  exact congrArg Except.ok (place_held place)

/-- Whatever has the last name of a path can be replaced if it is no directory. -/
theorem namedAt_of_destination (h : t.destination (.named path) = .ok place)
    (hdirectory : t.get? place ≠ some .directory) : t.NamedAt path place := by
  rw [FileTree.destination] at h
  cases hgoal : t.goal .inspect path with
  | error cause =>
    rw [hgoal] at h
    cases h
  | ok goal =>
    rw [hgoal] at h
    cases h
    have hno : ∀ dir, goal ≠ .entry dir .directory := by
      rintro dir rfl
      exact hdirectory (get?_of_goal hgoal)
    obtain ⟨place, hnamed, rfl⟩ := exists_namedAt hgoal hno
    rwa [place_held]

/-- What holds the last name of a path that leads to nothing is free or a link. -/
theorem NamedAt.free_or_link (h : t.NamedAt path place)
    (hnowhere : ∀ found entry, t.goal .reach path ≠ .ok (.entry found entry)) :
    t.get? place = none ∨ ∃ target, t.get? place = some (.link target) := by
  cases hget : t.get? place with
  | none => exact .inl rfl
  | some entry =>
    cases entry with
    | link target => exact .inr ⟨target, rfl⟩
    | file | directory =>
      have hgoal := h.goal_reach (by rw [hget]; exact fun target heq => nomatch heq)
      rw [held, hget] at hgoal
      exact absurd hgoal (hnowhere _ _)

end Replaced
end FileTree
end DocLint
