import Mathlib.Data.List.Induction
import DocLint.Proofs.FileTree.Below

/-!
# Where joined paths lead

Names that are joined to the path of a directory are followed from that directory (`FileTree.exists_goal_joinAll`): the
path of the directory is walked first, which may use up links (`walk_append`), and then the names, each of them a
directory of the tree but the last (`walk_names`). A slash at the end of the path of the directory does not matter
(`walk_skip`). A walk goes on from part to part as long as the parts lead on (`walk_induction`).
-/

namespace DocLint

/-! ## The parts of a joined path -/

namespace Path

variable {p : Path} {names : List Text}

theorem splitOn_append_slash (s t : Text) : (s ++ '/' :: t).splitOn '/' = s.splitOn '/' ++ t.splitOn '/' :=
  List.splitOnP_append_cons s t (beq_self_eq_true '/')

/-- The path without a slash at its end. -/
def base (p : Path) : Path := if p.text.getLast? = some '/' then ⟨p.text.dropLast⟩ else p

theorem stub_eq (hne : p.text ≠ []) : p.stub = p.base.text ++ ['/'] := by
  unfold stub base
  by_cases hlast : p.text.getLast? = some '/'
  · rw [if_pos (.inr hlast), if_pos hlast]
    exact (List.dropLast_append_getLast? _ hlast).symm
  · rw [if_neg (not_or.2 ⟨hne, hlast⟩), if_neg hlast]

/-- A slash at the end is an empty part. -/
theorem parts_eq_base (p : Path) : p.parts = p.base.parts ∨ p.parts = p.base.parts ++ [[]] := by
  unfold base
  by_cases hlast : p.text.getLast? = some '/'
  · right
    rw [if_pos hlast]
    have hsplit := splitOn_append_slash p.text.dropLast []
    rwa [List.dropLast_append_getLast? _ hlast] at hsplit
  · left
    rw [if_neg hlast]

theorem parts_joinAll (hp : p.text ≠ []) (hne : names ≠ []) (h : ∀ name ∈ names, Place.isName name = true) :
    (p.joinAll names).parts = p.base.parts ++ names := by
  rw [parts, joinAll_text hne h, stub_eq hp, List.append_assoc, List.singleton_append, splitOn_append_slash,
    List.splitOn_intercalate '/' (fun name hname => (of_isName (h name hname)).2) hne]
  rfl

theorem isAbsolute_joinAll (hp : p.text ≠ []) (hne : names ≠ []) (h : ∀ name ∈ names, Place.isName name = true) :
    (p.joinAll names).isAbsolute = p.isAbsolute := by
  obtain ⟨c, rest, htext⟩ := List.exists_cons_of_ne_nil hp
  have hstub : ∃ tail, p.stub = p.text ++ tail := by
    unfold stub
    split
    · exact ⟨[], (List.append_nil _).symm⟩
    · exact ⟨['/'], rfl⟩
  obtain ⟨tail, hstub⟩ := hstub
  rw [isAbsolute, isAbsolute, joinAll_text hne h, hstub, htext]
  rfl

theorem holdsNul_join {name : Text} (hp : p.holdsNul = false) (h : Place.isName name = true) :
    (p.join name).holdsNul = false := by
  have hname : '\x00' ∉ name := (isName_iff.1 h).2.2.2.1
  simp only [holdsNul, List.contains_eq_mem, decide_eq_false_iff_not] at hp ⊢
  unfold join
  split <;> simp [hp, hname]

theorem holdsNul_joinAll : ∀ {p : Path} {names : List Text}, p.holdsNul = false →
    (∀ name ∈ names, Place.isName name = true) → (p.joinAll names).holdsNul = false
  | _, [], hp, _ => hp
  | p, name :: names, hp, h => by
    obtain ⟨hname, hrest⟩ := List.forall_mem_cons.1 h
    exact holdsNul_joinAll (p := p.join name) (holdsNul_join hp hname) hrest

theorem holdsNul_of_fault? (h : p.fault? = none) : p.holdsNul = false := by
  unfold fault? at h
  split at h
  · cases h
  · exact Bool.eq_false_iff.2 ‹_›

theorem text_ne_nil_of_fault? (h : p.fault? = none) : p.text ≠ [] := by
  rintro hnil
  rw [fault?, holdsNul_of_fault? h, hnil] at h
  cases h

end Path

namespace FileTree

variable {t : FileTree}

/-! ## The steps of a walk -/

section Steps

/-- What a walk through at most `links` links does at a link. -/
def enter (t : FileTree) (ending : Ending) : (links : Nat) → Place → List Text → Except AccessError Goal
  | 0 => fun _ _ => .error .tooManyLinks
  | links + 1 => t.walk ending links

theorem walk_eq (t : FileTree) (ending : Ending) (links : Nat) :
    t.walk ending links = t.walkParts ending (t.enter ending links) := by
  cases links <;> rfl

theorem walk_nil {ending : Ending} (links : Nat) (dir : Place) :
    t.walk ending links dir [] = .ok (.entry dir .directory) := by
  rw [walk_eq, walkParts]

theorem walk_stay {ending : Ending} {part : Text} (h : Path.leads part = false) (links : Nat) (dir : Place)
    (rest : List Text) : t.walk ending links dir (part :: rest) = t.walk ending links dir rest := by
  rw [walk_eq, walkParts_cons, h]
  rfl

theorem walk_up {ending : Ending} (links : Nat) (dir : Place) (rest : List Text) :
    t.walk ending links dir (Path.above :: rest) = t.walk ending links dir.dropLast rest := by
  rw [walk_eq, walkParts_cons]
  rfl

/-- A part that leads somewhere below must be a name. -/
theorem walk_below {ending : Ending} {part : Text} {rest : List Text} (hrefuses : ending.refuses rest = false)
    (hleads : Path.leads part = true) (hup : part ≠ Path.above) (links : Nat) (dir : Place) :
    t.walk ending links dir (part :: rest) =
      if Place.isName part then t.followName ending (t.enter ending links) dir part rest else .error .nameTooLong := by
  rw [walk_eq, walkParts_cons, hleads, Bool.not_true, if_neg Bool.false_ne_true, if_neg hup, refusal?, hrefuses]
  cases Place.isName part <;> rfl

theorem followName_eq {ending : Ending} {enter : Place → List Text → Except AccessError Goal} {dir : Place}
    {part : Text} {rest : List Text}
    (hlong : ending.overlong (dir ++ [part]) (t.get? (dir ++ [part])) rest = false) :
    t.followName ending enter dir part rest = t.followEntry ending enter dir part rest := by
  rw [followName, hlong, if_neg Bool.false_ne_true]

/-- An entry is followed through a link at the end of a path too. -/
theorem followEntry_eq {ending : Ending} {rest : List Text} (hlast : ending.isLast rest = rest.isEmpty)
    (hkeeps : ending.keepsLink = false) (links : Nat) (dir : Place) (part : Text) :
    t.followEntry ending (t.enter ending links) dir part rest =
      match t.get? (dir ++ [part]) with
      | some .directory => t.walk ending links (dir ++ [part]) rest
      | some (.link target) => t.enter ending links (target.start dir) (target.parts ++ rest)
      | some (.file bytes) =>
        if rest.isEmpty then .ok (.entry (dir ++ [part]) (.file bytes)) else .error .notDirectory
      | none => if rest.isEmpty then .ok (.vacant (dir ++ [part])) else .error .notFound := by
  rw [followEntry, hlast, hkeeps, Bool.and_false, walk_eq]
  cases t.get? (dir ++ [part]) with
  | none => rfl
  | some entry => cases entry <;> rfl

/-- A name leads to the entry of that name; links are followed. -/
theorem walk_name {part : Text} (h : Place.isName part = true) (links : Nat) (dir : Place) (rest : List Text) :
    t.walk .reach links dir (part :: rest) =
      match t.get? (dir ++ [part]) with
      | some .directory => t.walk .reach links (dir ++ [part]) rest
      | some (.link target) => t.enter .reach links (target.start dir) (target.parts ++ rest)
      | some (.file bytes) =>
        if rest.isEmpty then .ok (.entry (dir ++ [part]) (.file bytes)) else .error .notDirectory
      | none => if rest.isEmpty then .ok (.vacant (dir ++ [part])) else .error .notFound := by
  obtain ⟨hleads, hup, -⟩ := Path.isName_iff.1 h
  rw [walk_below rfl hleads hup, if_pos h, followName_eq rfl, followEntry_eq rfl rfl]

/-- So it does when places are looked up by their paths, unless the path of this one is too long. -/
theorem walk_resolve_name {part : Text} (h : Place.isName part = true) (links : Nat) (dir : Place) (rest : List Text) :
    t.walk .resolve links dir (part :: rest) = .error .nameTooLong ∨
      t.walk .resolve links dir (part :: rest) =
        match t.get? (dir ++ [part]) with
        | some .directory => t.walk .resolve links (dir ++ [part]) rest
        | some (.link target) => t.enter .resolve links (target.start dir) (target.parts ++ rest)
        | some (.file bytes) =>
          if rest.isEmpty then .ok (.entry (dir ++ [part]) (.file bytes)) else .error .notDirectory
        | none => if rest.isEmpty then .ok (.vacant (dir ++ [part])) else .error .notFound := by
  obtain ⟨hleads, hup, -⟩ := Path.isName_iff.1 h
  rw [walk_below rfl hleads hup, if_pos h, followName, followEntry_eq rfl rfl]
  split
  · exact .inl rfl
  · exact .inr rfl

/-- One part of a path leads on: to another directory, from where more parts are to be followed if it was a link. -/
inductive Moves (t : FileTree) : (links : Nat) → Place → Text → (left : Nat) → Place → List Text → Prop
  | stay {part : Text} (links : Nat) (dir : Place) : Path.leads part = false → Moves t links dir part links dir []
  | up (links : Nat) (dir : Place) : Moves t links dir Path.above links dir.dropLast []
  | enter {dir : Place} {part : Text} (links : Nat) : Place.isName part = true →
      t.get? (dir ++ [part]) = some .directory → Moves t links dir part links (dir ++ [part]) []
  | link {dir : Place} {part : Text} {target : Path} (links : Nat) : Place.isName part = true →
      t.get? (dir ++ [part]) = some (.link target) →
      Moves t (links + 1) dir part links (target.start dir) target.parts

/-- A walk goes on after a part as it would from where the part leads. -/
theorem Moves.walk {links left : Nat} {dir dir' : Place} {part : Text} {parts : List Text}
    (h : t.Moves links dir part left dir' parts) (rest : List Text) :
    t.walk .reach links dir (part :: rest) = t.walk .reach left dir' (parts ++ rest) := by
  cases h with
  | stay _ _ hstay => exact walk_stay hstay links dir rest
  | up => exact walk_up links dir rest
  | enter _ hname hget => rw [walk_name hname, hget, List.nil_append]
  | link _ hname hget =>
    rw [walk_name hname, hget]
    rfl

theorem Moves.decreases {links left : Nat} {dir dir' : Place} {part : Text} {parts : List Text}
    (h : t.Moves links dir part left dir' parts) : left < links ∨ left = links ∧ parts = [] := by
  cases h with
  | stay | up | enter => exact .inr ⟨rfl, rfl⟩
  | link => exact .inl (Nat.lt_succ_self left)

/-- One part of a path leads no further: it is refused, is not in the tree, is a file, or a link that is one too
many. -/
inductive Halts (t : FileTree) : (links : Nat) → Place → Text → Prop
  | refused {part : Text} (links : Nat) (dir : Place) : Path.leads part = true → part ≠ Path.above →
      Place.isName part = false → Halts t links dir part
  | missing {dir : Place} {part : Text} (links : Nat) : Place.isName part = true → t.get? (dir ++ [part]) = none →
      Halts t links dir part
  | file {dir : Place} {part : Text} {bytes : ByteArray} (links : Nat) : Place.isName part = true →
      t.get? (dir ++ [part]) = some (.file bytes) → Halts t links dir part
  | exhausted {dir : Place} {part : Text} {target : Path} : Place.isName part = true →
      t.get? (dir ++ [part]) = some (.link target) → Halts t 0 dir part

theorem moves_or_halts_name {part : Text} (h : Place.isName part = true) (links : Nat) (dir : Place) :
    (∃ left dir' parts, t.Moves links dir part left dir' parts) ∨ t.Halts links dir part := by
  cases hget : t.get? (dir ++ [part]) with
  | none => exact .inr (.missing links h hget)
  | some entry =>
    cases entry with
    | directory => exact .inl ⟨links, _, [], .enter links h hget⟩
    | file bytes => exact .inr (.file links h hget)
    | link target =>
      cases links with
      | zero => exact .inr (.exhausted h hget)
      | succ left => exact .inl ⟨left, _, target.parts, .link left h hget⟩

theorem moves_or_halts (t : FileTree) (links : Nat) (dir : Place) (part : Text) :
    (∃ left dir' parts, t.Moves links dir part left dir' parts) ∨ t.Halts links dir part := by
  by_cases hleads : Path.leads part = true
  swap
  · exact .inl ⟨links, dir, [], .stay links dir (Bool.eq_false_iff.2 hleads)⟩
  by_cases hup : part = Path.above
  · rw [hup]
    exact .inl ⟨links, dir.dropLast, [], .up links dir⟩
  by_cases hname : Place.isName part = true
  · exact moves_or_halts_name hname links dir
  · exact .inr (.refused links dir hleads hup (Bool.eq_false_iff.2 hname))

/-- A part that leads no further is followed by nothing. -/
theorem Halts.walk_more {links : Nat} {dir : Place} {part : Text} (h : t.Halts links dir part) :
    ∃ cause, ∀ rest, rest ≠ [] → t.walk .reach links dir (part :: rest) = .error cause := by
  cases h with
  | refused _ _ hleads hup hname =>
    refine ⟨.nameTooLong, fun rest _ => ?_⟩
    rw [walk_below rfl hleads hup, hname]
    rfl
  | missing _ hname hget =>
    refine ⟨.notFound, fun rest hrest => ?_⟩
    rw [walk_name hname, hget]
    exact if_neg (by simpa using hrest)
  | file _ hname hget =>
    refine ⟨.notDirectory, fun rest hrest => ?_⟩
    rw [walk_name hname, hget]
    exact if_neg (by simpa using hrest)
  | exhausted hname hget =>
    refine ⟨.tooManyLinks, fun rest _ => ?_⟩
    rw [walk_name hname, hget]
    rfl

/-- A path that leads to an entry by a part that leads no further ends in a file. -/
theorem Halts.of_walk_eq {links : Nat} {dir : Place} {part : Text} {rest : List Text} {place : Place} {entry : Entry}
    (h : t.Halts links dir part) (hwalk : t.walk .reach links dir (part :: rest) = .ok (.entry place entry)) :
    ∃ bytes, entry = .file bytes ∧ rest = [] ∧ place = dir ++ [part] ∧ Place.isName part = true ∧
      t.get? place = some (.file bytes) := by
  cases h with
  | refused _ _ hleads hup hname =>
    rw [walk_below rfl hleads hup, hname] at hwalk
    cases hwalk
  | missing _ hname hget | exhausted hname hget =>
    rw [walk_name hname, hget] at hwalk
    cases rest <;> cases hwalk
  | file _ hname hget =>
    rw [walk_name hname, hget] at hwalk
    cases rest with
    | nil =>
      cases hwalk
      exact ⟨_, rfl, rfl, rfl, hname, hget⟩
    | cons next rest => cases hwalk

theorem Halts.not_directory {links : Nat} {dir : Place} {part : Text} {rest : List Text} {place : Place}
    (h : t.Halts links dir part) : t.walk .reach links dir (part :: rest) ≠ .ok (.entry place .directory) := by
  intro hwalk
  obtain ⟨bytes, heq, -⟩ := h.of_walk_eq hwalk
  cases heq

/-- A walk moves from part to part until it halts. Fewer links or fewer parts are left after each move. -/
theorem walk_induction {motive : Nat → Place → List Text → Prop} (nil : ∀ links dir, motive links dir [])
    (moves : ∀ {links left dir dir' part parts} rest, t.Moves links dir part left dir' parts →
      motive left dir' (parts ++ rest) → motive links dir (part :: rest))
    (halts : ∀ {links dir part} rest, t.Halts links dir part → motive links dir (part :: rest))
    (links : Nat) (dir : Place) (parts : List Text) : motive links dir parts := by
  match parts with
  | [] => exact nil links dir
  | part :: rest =>
    rcases t.moves_or_halts links dir part with ⟨left, dir', parts, hmoves⟩ | hhalts
    · have hdecreases := hmoves.decreases
      exact moves rest hmoves (walk_induction nil moves halts left dir' (parts ++ rest))
    · exact halts rest hhalts
termination_by (links, parts.length)
decreasing_by
  rcases hdecreases with hlt | ⟨rfl, rfl⟩
  · exact Prod.Lex.left _ _ hlt
  · exact Prod.Lex.right _ (Nat.lt_succ_self _)

/-- **Looking places up on the way** leads nowhere else, but the path of a place can be too long for it. -/
theorem walk_resolve (links : Nat) (dir : Place) (parts : List Text) :
    t.walk .resolve links dir parts = .error .nameTooLong ∨
      t.walk .resolve links dir parts = t.walk .reach links dir parts := by
  induction links, dir, parts using walk_induction (t := t) with
  | nil links dir => exact .inr (by rw [walk_nil, walk_nil])
  | @moves links left dir dir' part parts rest hmoves ih =>
    cases hmoves with
    | stay _ _ hstay => rwa [walk_stay hstay, walk_stay hstay]
    | up => rwa [walk_up, walk_up]
    | enter _ hname hget =>
      rcases walk_resolve_name hname links dir rest with hlong | hwalk
      · exact .inl hlong
      · rw [hwalk, walk_name hname, hget]
        exact ih
    | link left hname hget =>
      rcases walk_resolve_name hname (left + 1) dir rest with hlong | hwalk
      · exact .inl hlong
      · rw [hwalk, walk_name hname, hget]
        exact ih
  | @halts links dir part rest hhalts =>
    cases hhalts with
    | refused _ _ hleads hup hname =>
      rw [walk_below rfl hleads hup, walk_below rfl hleads hup, hname]
      exact .inl rfl
    | missing _ hname hget | file _ hname hget =>
      refine (walk_resolve_name hname _ dir rest).imp_right fun hwalk => ?_
      rw [hwalk, walk_name hname, hget]
    | exhausted hname hget =>
      refine (walk_resolve_name hname _ dir rest).imp_right fun hwalk => ?_
      rw [hwalk, walk_name hname, hget]
      rfl

end Steps

/-! ## Walks to a directory and on -/

section Walks

/-- **A walk that comes to a directory** goes on from there, through the links that are left. -/
theorem walk_append {place : Place} (links : Nat) (dir : Place) (parts : List Text)
    (h : t.walk .reach links dir parts = .ok (.entry place .directory)) :
    ∃ left ≤ links, ∀ rest, t.walk .reach links dir (parts ++ rest) = t.walk .reach left place rest := by
  induction links, dir, parts using walk_induction (t := t) with
  | nil links dir =>
    rw [walk_nil] at h
    cases h
    exact ⟨links, Nat.le_refl links, fun rest => rfl⟩
  | @moves links left dir dir' part parts rest hmoves ih =>
    rw [hmoves.walk] at h
    have hdecreases := hmoves.decreases
    obtain ⟨left', hle, hwalk⟩ := ih h
    refine ⟨left', by omega, fun more => ?_⟩
    rw [List.cons_append, hmoves.walk, ← List.append_assoc, hwalk]
  | halts rest hhalts => exact absurd h hhalts.not_directory

/-- A part that is empty does not matter before other parts. -/
theorem walk_skip {more : List Text} (hmore : more ≠ []) (links : Nat) (dir : Place) (parts : List Text) :
    t.walk .reach links dir (parts ++ [] :: more) = t.walk .reach links dir (parts ++ more) := by
  induction links, dir, parts using walk_induction (t := t) with
  | nil links dir => exact walk_stay rfl links dir more
  | moves rest hmoves ih =>
    rw [List.cons_append, List.cons_append, hmoves.walk, hmoves.walk, ← List.append_assoc, ← List.append_assoc, ih]
  | halts rest hhalts =>
    obtain ⟨cause, hcause⟩ := hhalts.walk_more
    have hne : ∀ {more : List Text}, more ≠ [] → rest ++ more ≠ [] := List.append_ne_nil_of_right_ne_nil rest
    rw [List.cons_append, List.cons_append, hcause _ (hne hmore), hcause _ (hne (List.cons_ne_nil _ _))]

/-- What lies above an entry is a directory. -/
theorem get?_of_get?_append {place : Place} : ∀ {names : List Text} {entry : Entry}, names ≠ [] →
    t.get? (place ++ names) = some entry → t.get? place = some .directory := by
  intro names
  induction names using List.reverseRecOn with
  | nil => exact fun h => absurd rfl h
  | append_singleton names name ih =>
    intro entry _ hget
    rw [← List.append_assoc] at hget
    have hdir := get?_dropLast hget (by simp)
    rw [List.dropLast_concat] at hdir
    by_cases hnames : names = []
    · rwa [hnames, List.append_nil] at hdir
    · exact ih hnames hdir

/-- Names of directories are walked without any link. -/
theorem walk_names (links : Nat) : ∀ {place : Place} {names : List Text}, t.get? (place ++ names) = some .directory →
    ∀ rest, t.walk .reach links place (names ++ rest) = t.walk .reach links (place ++ names) rest
  | place, [], _, rest => by rw [List.append_nil, List.nil_append]
  | place, name :: names, h, rest => by
    rw [List.append_cons] at h
    have hname : Place.isName name = true := t.named _ (mem_of_get? h) name (by simp)
    have hdir : t.get? (place ++ [name]) = some .directory := by
      by_cases hnames : names = []
      · rwa [hnames, List.append_nil] at h
      · exact get?_of_get?_append hnames h
    rw [List.cons_append, (Moves.enter links hname hdir).walk, List.nil_append, walk_names links h, ← List.append_cons]

end Walks

/-! ## The goal of a joined path -/

section Goals

/-- A path that leads somewhere is not refused as it is written. -/
theorem fault?_of_goal {ending : Ending} {path : Path} {goal : Goal} (h : t.goal ending path = .ok goal) :
    path.fault? = none := by
  unfold FileTree.goal at h
  split at h
  · cases h
  · assumption

theorem goal_eq_walk {ending : Ending} {path : Path} (h : path.fault? = none) :
    t.goal ending path = t.walk ending maxLinks (path.start t.workDir) path.parts := by rw [FileTree.goal, h]

theorem walk_of_goal {ending : Ending} {path : Path} {goal : Goal} (h : t.goal ending path = .ok goal) :
    t.walk ending maxLinks (path.start t.workDir) path.parts = .ok goal :=
  (goal_eq_walk (fault?_of_goal h)).symm.trans h

/-- A place that is told is the one that the path leads to. -/
theorem resolve?_eq_some {path : Path} {place : Place} (h : t.resolve? path = some place) :
    ∃ entry, t.walk .reach maxLinks (path.start t.workDir) path.parts = .ok (.entry place entry) ∧
      t.get? place = some entry := by
  unfold resolve? at h
  split at h
  · cases h
  · split at h
    · rename_i entry hresolve
      cases h
      have hwalk := (walk_resolve maxLinks (path.start t.workDir) path.parts).resolve_left
        (by rw [hresolve]; exact nofun)
      exact ⟨entry, hwalk ▸ hresolve, t.hasGoal_walk_start .resolve path _ entry hresolve⟩
    · cases h

/-- The system cannot tell where the path leads: a place on its way is too far from the top to be looked up. -/
def TooFar (t : FileTree) (path : Path) : Prop :=
  t.walk .resolve maxLinks (path.start t.workDir) path.parts = .error .nameTooLong

/-- The place that a path leads to is told, unless it is too far. -/
theorem resolve?_of_goal {path : Path} {place : Place} {entry : Entry}
    (h : t.goal .reach path = .ok (.entry place entry)) : t.resolve? path = some place ∨ t.TooFar path := by
  have hfault := fault?_of_goal h
  have hplain : (path.holdsNul || path.text.isEmpty) = false := by
    rw [Path.holdsNul_of_fault? hfault, List.isEmpty_eq_false_iff.2 (Path.text_ne_nil_of_fault? hfault), Bool.or_false]
  rcases walk_resolve (t := t) maxLinks (path.start t.workDir) path.parts with hlong | hsame
  · exact .inr hlong
  · left
    rw [resolve?, hplain, if_neg Bool.false_ne_true, hsame, walk_of_goal h]

/-- The name of an entry, and the directory that it is in. -/
theorem get?_concat {place : Place} {names : List Text} {name : Text} {entry : Entry}
    (h : t.get? (place ++ (names ++ [name])) = some entry) :
    (∀ n ∈ names ++ [name], Place.isName n = true) ∧ t.get? (place ++ names) = some .directory := by
  refine ⟨fun n hn => t.named _ (mem_of_get? h) n (List.mem_append_right _ hn), ?_⟩
  rw [← List.append_assoc] at h
  exact get?_of_get?_append (List.cons_ne_nil _ _) h

/-- **Names joined to a directory** lead to what the last of them leads to from the directory that it is in. -/
theorem exists_goal_joinAll {root : Path} {place : Place} (h : t.goal .reach root = .ok (.entry place .directory)) :
    ∃ links ≤ maxLinks, ∀ names name entry, t.get? (place ++ (names ++ [name])) = some entry →
      (root.joinAll (names ++ [name])).text.byteCount ≤ Path.maxBytes →
      t.goal .reach (root.joinAll (names ++ [name])) = t.walk .reach links (place ++ names) [name] := by
  have hfault := fault?_of_goal h
  have hne := Path.text_ne_nil_of_fault? hfault
  obtain ⟨links, hlinks, hwalk⟩ := walk_append _ _ _ (walk_of_goal h)
  refine ⟨links, hlinks, fun names name entry hget hsize => ?_⟩
  obtain ⟨hnames, hdir⟩ := get?_concat hget
  have hall : names ++ [name] ≠ [] := List.append_ne_nil_of_right_ne_nil _ (List.cons_ne_nil _ _)
  have hbase : t.walk .reach maxLinks (root.start t.workDir) (root.base.parts ++ (names ++ [name])) =
      t.walk .reach links place (names ++ [name]) := by
    rcases root.parts_eq_base with hparts | hparts
    · rw [← hparts, hwalk]
    · rw [← hwalk, hparts, List.append_assoc, List.singleton_append, walk_skip hall]
  have hjoined : (root.joinAll (names ++ [name])).fault? = none := by
    have hnul := Path.holdsNul_joinAll (Path.holdsNul_of_fault? hfault) hnames
    have htext : (root.joinAll (names ++ [name])).text.isEmpty = false := by
      rw [Path.joinAll_text hall hnames, Path.stub_eq hne]
      exact List.isEmpty_eq_false_iff.2 (by simp)
    rw [Path.fault?, hnul, htext, if_neg Bool.false_ne_true, if_neg Bool.false_ne_true, if_neg (Nat.not_lt.2 hsize)]
  have hstart : (root.joinAll (names ++ [name])).start t.workDir = root.start t.workDir := by
    rw [Path.start, Path.start, Path.isAbsolute_joinAll hne hall hnames]
  rw [goal_eq_walk hjoined, Path.parts_joinAll hne hall hnames, hstart]
  exact hbase.trans (walk_names links hdir [name])

end Goals
end FileTree
end DocLint
