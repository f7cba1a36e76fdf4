import Mathlib.Algebra.Order.BigOperators.Group.List
import Mathlib.Algebra.Order.Group.Nat
import DocLint.Proofs.FileTree.Joined
import DocLint.Proofs.Text.Bytes

/-!
# The files that a walk finds

The files to check below a directory are exactly the entries below it that have a role and lead to a file
(`FileTree.filesUnder_discovers`). They come in the order of their paths, which are compared component by component in
the order of bytes (`Path.sortKey`), since the entries of a tree are in this order: `FileTree.below` lists what a walk
visits that goes through the entries of a directory by name, and through a directory before the entries that follow it
(`FileTree.below_eq_visit`).
-/

namespace DocLint

/-! ## The order of paths -/

namespace Path

/-- What paths are compared by, from the first to the last. -/
inductive Component
  | top
  | here
  | above
  | name (text : Text)

/-- Components of different kinds are in the order of the kinds, and names in the order of their bytes. -/
def Component.key : Component → List UInt8
  | top => [0]
  | here => [1]
  | above => [2]
  | name text => 3 :: text.bytes

/-- The component of a part that leads somewhere. -/
def Component.ofPart (part : Text) : Component := if part = Path.above then .above else .name part

/-- The components of a path. A single dot is one at the beginning only. -/
def components (p : Path) : List Component :=
  (if p.isAbsolute then [.top] else if p.parts.head? = some Path.here then [.here] else []) ++
    (p.parts.filter leads).map .ofPart

/-- The keys of the components, which decide the order of two paths. -/
def sortKey (p : Path) : List (List UInt8) := p.components.map Component.key

/-- Joined names are components. -/
theorem components_joinAll {p : Path} {names : List Text} (hp : p.text ≠ [])
    (h : ∀ name ∈ names, Place.isName name = true) :
    (p.joinAll names).components = p.components ++ names.map Component.name := by
  by_cases hne : names = []
  · rw [hne, List.map_nil, List.append_nil]
    rfl
  have hbase : p.base.parts ≠ [] := List.splitOnP_ne_nil _ _
  have hhead : (p.joinAll names).parts.head? = p.parts.head? := by
    rw [parts_joinAll hp hne h, List.head?_append_of_ne_nil _ hbase]
    rcases p.parts_eq_base with hparts | hparts
    · rw [hparts]
    · rw [hparts, List.head?_append_of_ne_nil _ hbase]
  have hfilter : (p.joinAll names).parts.filter leads = p.parts.filter leads ++ names := by
    have hnames : names.filter leads = names := List.filter_eq_self.2 fun name hname => (isName_iff.1 (h name hname)).1
    rw [parts_joinAll hp hne h, List.filter_append, hnames]
    rcases p.parts_eq_base with hparts | hparts
    · rw [hparts]
    · have hempty : ([[]] : List Text).filter leads = [] := rfl
      rw [hparts, List.filter_append, hempty, List.append_nil]
  have hmap : names.map Component.ofPart = names.map Component.name :=
    List.map_congr_left fun name hname => if_neg (isName_iff.1 (h name hname)).2.1
  rw [components, components, isAbsolute_joinAll hp hne h, hhead, hfilter, List.map_append, hmap, List.append_assoc]

theorem map_key_lt : ∀ {names names' : List Text}, names < names' →
    (names.map Component.name).map Component.key < (names'.map Component.name).map Component.key
  | _, [], h => absurd h (List.not_lt_nil _)
  | [], _ :: _, _ => List.nil_lt_cons _ _
  | name :: names, name' :: names', h => by
    simp only [List.map_cons]
    rw [List.cons_lt_cons_iff]
    rcases List.cons_lt_cons_iff.1 h with hlt | ⟨rfl, hrest⟩
    · exact .inl (List.cons_lt_cons_iff.2 (.inr ⟨rfl, Text.bytes_lt_bytes hlt⟩))
    · exact .inr ⟨rfl, map_key_lt hrest⟩

/-- Joined paths are in the order of the names. -/
theorem sortKey_joinAll_lt {p : Path} {names names' : List Text} (hp : p.text ≠ [])
    (h : ∀ name ∈ names, Place.isName name = true) (h' : ∀ name ∈ names', Place.isName name = true)
    (hlt : names < names') : (p.joinAll names).sortKey < (p.joinAll names').sortKey := by
  rw [sortKey, sortKey, components_joinAll hp h, components_joinAll hp h', List.map_append, List.map_append]
  exact List.append_left_lt (map_key_lt hlt)

/-- What is in a directory comes before a file whose name the name of the directory begins. -/
example : sortKey ⟨"src/a/z.h".toList⟩ < sortKey ⟨"src/a.h".toList⟩ := by decide +kernel

end Path

namespace FileTree

variable {t : FileTree} {root : Path}

/-! ## Visiting the entries of a directory -/

section Visits

/-- The names of the entries of a directory, in order. -/
def listing (t : FileTree) (dir : Place) : List Text := (t.below dir).filterMap fun names =>
  match names with
  | [name] => some name
  | _ => none

/-- The entries below a directory, at most `depth` names down: each entry by name, a directory before what is in it.
Links are entries like files. -/
def visit (t : FileTree) : (depth : Nat) → (dir : Place) → List (List Text)
  | 0, _ => []
  | depth + 1, dir => (t.listing dir).flatMap fun name =>
    [name] :: if t.hasDirectory (dir ++ [name]) then (t.visit depth (dir ++ [name])).map (name :: ·) else []

theorem lt_of_append_lt {place p q : Place} (h : place ++ p < place ++ q) : p < q := by
  induction place with
  | nil => exact h
  | cons name place ih =>
    rcases List.cons_lt_cons_iff.1 h with hlt | ⟨-, hrest⟩
    · exact absurd hlt (List.lt_irrefl name)
    · exact ih hrest

theorem pairwise_below (t : FileTree) (place : Place) : (t.below place).Pairwise (· < ·) := by
  refine t.sorted.filterMap _ fun e e' hlt names hnames names' hnames' => ?_
  rw [← List.isPrefixOf?_eq_some_iff_append_eq.1 hnames, ← List.isPrefixOf?_eq_some_iff_append_eq.1 hnames'] at hlt
  exact lt_of_append_lt hlt

theorem mem_listing_iff {dir : Place} {name : Text} :
    name ∈ t.listing dir ↔ ∃ entry, t.get? (dir ++ [name]) = some entry := by
  rw [listing, List.mem_filterMap, ← mem_below_iff]
  constructor
  · rintro ⟨names, hmem, heq⟩
    split at heq
    · cases heq
      exact hmem
    · cases heq
  · exact fun hmem => ⟨[name], hmem, rfl⟩

theorem pairwise_listing (t : FileTree) (dir : Place) : (t.listing dir).Pairwise (· < ·) := by
  refine (t.pairwise_below dir).filterMap _ fun names names' hlt name hname name' hname' => ?_
  split at hname
  · split at hname'
    · cases hname
      cases hname'
      rcases List.cons_lt_cons_iff.1 hlt with hlt | ⟨-, hnil⟩
      · exact hlt
      · exact absurd hnil (List.lt_irrefl _)
    · cases hname'
  · cases hname

/-- The walk comes to every entry that is not too deep. -/
theorem mem_visit_iff : ∀ {depth : Nat} {dir : Place} {names : List Text},
    names ∈ t.visit depth dir ↔ names ≠ [] ∧ names.length ≤ depth ∧ ∃ entry, t.get? (dir ++ names) = some entry
  | 0, dir, names => by
    simp only [visit, List.not_mem_nil, Nat.le_zero_eq, List.length_eq_zero_iff, false_iff]
    exact fun h => h.1 h.2.1
  | depth + 1, dir, names => by
    rw [visit, List.mem_flatMap]
    constructor
    · rintro ⟨name, hname, hmem⟩
      rcases List.mem_cons.1 hmem with rfl | hmem
      · exact ⟨List.cons_ne_nil _ _, by simp, mem_listing_iff.1 hname⟩
      · split at hmem
        · obtain ⟨rest, hrest, rfl⟩ := List.mem_map.1 hmem
          obtain ⟨-, hdepth, entry, hget⟩ := mem_visit_iff.1 hrest
          rw [← List.append_cons] at hget
          exact ⟨List.cons_ne_nil _ _, Nat.succ_le_succ hdepth, entry, hget⟩
        · cases hmem
    · rintro ⟨hne, hdepth, entry, hget⟩
      obtain ⟨name, rest, rfl⟩ := List.exists_cons_of_ne_nil hne
      by_cases hrest : rest = []
      · subst hrest
        exact ⟨name, mem_listing_iff.2 ⟨entry, hget⟩, List.mem_cons_self⟩
      · rw [List.append_cons] at hget
        have hdir := get?_of_get?_append hrest hget
        refine ⟨name, mem_listing_iff.2 ⟨_, hdir⟩, List.mem_cons_of_mem _ ?_⟩
        rw [if_pos (hasDirectory_iff.2 (mem_of_get? hdir))]
        exact List.mem_map_of_mem (mem_visit_iff.2 ⟨hrest, Nat.le_of_succ_le_succ hdepth, entry, hget⟩)

theorem pairwise_visit : ∀ (depth : Nat) (dir : Place), (t.visit depth dir).Pairwise (· < ·)
  | 0, _ => List.Pairwise.nil
  | depth + 1, dir => by
    rw [visit, List.pairwise_flatMap]
    constructor
    · intro name _
      -- An entry comes before what is in it.
      refine List.pairwise_cons.2 ⟨fun names hnames => ?_, ?_⟩
      · split at hnames
        · obtain ⟨rest, hrest, rfl⟩ := List.mem_map.1 hnames
          obtain ⟨n, ns, rfl⟩ := List.exists_cons_of_ne_nil (mem_visit_iff.1 hrest).1
          exact List.cons_lt_cons_iff.2 (.inr ⟨rfl, List.nil_lt_cons n ns⟩)
        · cases hnames
      · split
        · refine List.pairwise_map.2 ((pairwise_visit depth _).imp fun hlt => ?_)
          exact List.cons_lt_cons_iff.2 (.inr ⟨rfl, hlt⟩)
        · exact List.Pairwise.nil
    · -- What is found through one entry comes before what is found through the next.
      have hhead : ∀ name names, (names ∈ [name] :: if t.hasDirectory (dir ++ [name]) then
          (t.visit depth (dir ++ [name])).map (name :: ·) else []) → ∃ rest, names = name :: rest := by
        intro name names hmem
        rcases List.mem_cons.1 hmem with rfl | hmem
        · exact ⟨[], rfl⟩
        · split at hmem
          · obtain ⟨rest, -, rfl⟩ := List.mem_map.1 hmem
            exact ⟨rest, rfl⟩
          · cases hmem
      refine (t.pairwise_listing dir).imp fun hlt names hnames names' hnames' => ?_
      obtain ⟨rest, rfl⟩ := hhead _ _ hnames
      obtain ⟨rest', rfl⟩ := hhead _ _ hnames'
      exact List.cons_lt_cons_iff.2 (.inl hlt)

/-- **The entries below a directory** are listed as a walk visits them, after the directory itself. -/
theorem below_eq_visit {dir : Place} {depth : Nat} (hdir : t.get? dir = some .directory)
    (hdepth : ∀ names ∈ t.below dir, names.length ≤ depth) : t.below dir = [] :: t.visit depth dir := by
  refine eq_of_pairwise_lt (t.pairwise_below dir) (List.pairwise_cons.2 ⟨fun names hmem => ?_, pairwise_visit _ _⟩)
    fun names => ?_
  · obtain ⟨name, rest, rfl⟩ := List.exists_cons_of_ne_nil (mem_visit_iff.1 hmem).1
    exact List.nil_lt_cons name rest
  · rw [List.mem_cons, mem_visit_iff, mem_below_iff]
    by_cases hnil : names = []
    · simp [hnil, hdir]
    · simp only [hnil, false_or, ne_eq, not_false_eq_true, true_and]
      exact ⟨fun hget => ⟨hdepth names (mem_below_iff.2 hget), hget⟩, fun h => h.2⟩

end Visits

/-! ## The files to check -/

section Discovery

/-- The entry that the names lead to from the directory at `root`, where links are not followed. -/
def entryUnder? (t : FileTree) (root : Path) (names : List Text) : Option Entry :=
  match t.goal .reach root with
  | .ok (.entry place .directory) => t.get? (place ++ names)
  | _ => none

/-- `files` are the files to check below the directory at `root`. -/
structure FindsFiles (t : FileTree) (root : Path) (files : List Path) : Prop where
  /-- They are the entries below the directory that have a role and lead to a file; only directories lead to them. -/
  mem_iff : ∀ path, path ∈ files ↔ ∃ names, names ≠ [] ∧ path = root.joinAll names ∧
    (∀ i < names.length, t.entryUnder? root (names.take i) = some .directory) ∧
    (∃ entry, t.entryUnder? root names = some entry) ∧ (∃ place, t.target? path = some place) ∧
    (FileRole.ofPath? path).isSome = true
  /-- A file of the directory is not missed, unless no path of this length leads anywhere. -/
  mem_of_file : ∀ names bytes, t.entryUnder? root names = some (.file bytes) →
    (root.joinAll names).text.byteCount ≤ Path.maxBytes → (FileRole.ofPath? (root.joinAll names)).isSome = true →
    root.joinAll names ∈ files
  /-- The path of an entry leads to what the entry leads to from the directory that it is in, with the links that the
  path of `root` has left. -/
  resolves : ∀ place, t.goal .reach root = .ok (.entry place .directory) → ∃ links ≤ maxLinks, ∀ names name entry,
    t.get? (place ++ (names ++ [name])) = some entry →
    (root.joinAll (names ++ [name])).text.byteCount ≤ Path.maxBytes →
    t.goal .reach (root.joinAll (names ++ [name])) = t.walk .reach links (place ++ names) [name]
  nodup : files.Nodup
  /-- The paths are in order, component by component. -/
  sorted : files.Pairwise fun path path' => path.sortKey < path'.sortKey
  /-- They come as a walk visits them that goes deep enough. -/
  visited : ∀ place, t.goal .reach root = .ok (.entry place .directory) →
    ∃ enough, ∀ depth ≥ enough, files = ((t.visit depth place).map root.joinAll).filter t.isRecognized

/-- No names lead to the directory itself, which is no file. -/
theorem isRecognized_root {place : Place} (h : t.goal .reach root = .ok (.entry place .directory)) :
    t.isRecognized (root.joinAll []) = false := by
  have hroot : root.joinAll [] = root := rfl
  rw [hroot, isRecognized, isFile, h]
  rfl

theorem mem_recognized_iff {place : Place} {path : Path} (h : t.goal .reach root = .ok (.entry place .directory)) :
    path ∈ ((t.below place).map root.joinAll).filter t.isRecognized ↔ ∃ names, names ≠ [] ∧ path = root.joinAll names ∧
      (∃ entry, t.get? (place ++ names) = some entry) ∧ (∃ place, t.target? path = some place) ∧
      (FileRole.ofPath? path).isSome = true := by
  have hrecognized : t.isRecognized path = true ↔
      (∃ place, t.target? path = some place) ∧ (FileRole.ofPath? path).isSome = true := by
    rw [isRecognized, Bool.and_eq_true, isFile_iff]
  rw [List.mem_filter, List.mem_map]
  constructor
  · rintro ⟨⟨names, hmem, rfl⟩, hpath⟩
    refine ⟨names, ?_, rfl, mem_below_iff.1 hmem, hrecognized.1 hpath⟩
    rintro rfl
    rw [isRecognized_root h] at hpath
    cases hpath
  · rintro ⟨names, -, rfl, hentry, hpath⟩
    exact ⟨⟨names, mem_below_iff.2 hentry, rfl⟩, hrecognized.2 hpath⟩

theorem pairwise_recognized {place : Place} (h : t.goal .reach root = .ok (.entry place .directory)) :
    (((t.below place).map root.joinAll).filter t.isRecognized).Pairwise
      fun path path' => path.sortKey < path'.sortKey := by
  have hroot : root.text ≠ [] := Path.text_ne_nil_of_fault? (fault?_of_goal h)
  refine List.Pairwise.filter _ (List.pairwise_map.2 ((t.pairwise_below place).imp_of_mem ?_))
  intro names names' hmem hmem' hlt
  exact Path.sortKey_joinAll_lt hroot (isName_of_mem_below hmem) (isName_of_mem_below hmem') hlt

theorem exists_recognized_eq_visit {place : Place} (h : t.goal .reach root = .ok (.entry place .directory)) :
    ∃ enough, ∀ depth ≥ enough, ((t.below place).map root.joinAll).filter t.isRecognized =
      ((t.visit depth place).map root.joinAll).filter t.isRecognized := by
  refine ⟨((t.below place).map List.length).sum, fun depth hdepth => ?_⟩
  have hbelow : t.below place = [] :: t.visit depth place := below_eq_visit (get?_of_goal h) fun names hmem =>
    (List.le_sum_of_mem (List.mem_map_of_mem hmem)).trans hdepth
  rw [hbelow, List.map_cons, List.filter_cons, isRecognized_root h, if_neg Bool.false_ne_true]

/-- A file of the tree is what its path leads to. -/
theorem target?_joinAll {place : Place} {names : List Text} {bytes : ByteArray}
    (h : t.goal .reach root = .ok (.entry place .directory)) (hget : t.get? (place ++ names) = some (.file bytes))
    (hsize : (root.joinAll names).text.byteCount ≤ Path.maxBytes) :
    t.target? (root.joinAll names) = some (place ++ names) := by
  obtain ⟨links, -, hgoal⟩ := exists_goal_joinAll h
  cases names using List.reverseRecOn with
  | nil =>
    rw [List.append_nil, get?_of_goal h] at hget
    cases hget
  | append_singleton names name =>
    refine target?_eq_some_iff.2 ⟨bytes, ?_⟩
    have hname := (get?_concat hget).1 name (by simp)
    rw [hgoal names name _ hget hsize, walk_name hname, List.append_assoc, hget]
    rfl

theorem findsFiles_of_goal {place : Place} (h : t.goal .reach root = .ok (.entry place .directory)) :
    t.FindsFiles root (((t.below place).map root.joinAll).filter t.isRecognized) := by
  have hunder : ∀ names, t.entryUnder? root names = t.get? (place ++ names) := fun names => by rw [entryUnder?, h]
  refine ⟨fun path => ?_, fun names bytes hget hsize hrole => ?_, fun _ => exists_goal_joinAll, ?_,
    pairwise_recognized h, fun place' h' => ?_⟩
  · rw [mem_recognized_iff h]
    refine exists_congr fun names => and_congr_right fun _ => and_congr_right fun _ => ?_
    rw [hunder]
    refine ⟨fun hall => ⟨fun i hi => ?_, hall⟩, fun hall => hall.2⟩
    obtain ⟨⟨entry, hget⟩, -⟩ := hall
    rw [← List.take_append_drop i names, ← List.append_assoc] at hget
    have hdrop : names.drop i ≠ [] := fun hnil => by
      rw [List.drop_eq_nil_iff] at hnil
      omega
    rw [hunder, get?_of_get?_append hdrop hget]
  · rw [hunder] at hget
    have hne : names ≠ [] := by
      rintro rfl
      rw [List.append_nil, get?_of_goal h] at hget
      cases hget
    exact (mem_recognized_iff h).2 ⟨names, hne, rfl, ⟨_, hget⟩, ⟨_, target?_joinAll h hget hsize⟩, hrole⟩
  · refine (pairwise_recognized h).imp fun {path path'} hlt heq => ?_
    rw [heq] at hlt
    exact List.lt_irrefl _ hlt
  · rw [h] at h'
    cases h'
    exact exists_recognized_eq_visit h

/-- **The files below a directory** are found, all of them and no others, each once and in order. A root that is no
directory is an error. -/
theorem filesUnder_discovers (t : FileTree) (root : Path) :
    if t.isDirectory root then ∃ files, t.filesUnder root = .ok files ∧ t.FindsFiles root files
    else t.filesUnder root = .error ⟨root⟩ := by
  by_cases hroot : t.isDirectory root = true
  swap
  · rw [if_neg hroot]
    exact filesUnder_eq_error (Bool.eq_false_iff.2 hroot)
  rw [if_pos hroot]
  obtain ⟨place, hgoal⟩ := isDirectory_iff.1 hroot
  exact ⟨_, by rw [filesUnder, hgoal], findsFiles_of_goal hgoal⟩

end Discovery
end FileTree
end DocLint
