import DocLint.Path

/-!
# File trees

A file tree maps places, lists of names from the top, to files, directories and links. Its entries are kept in the
order of their places, so that a directory comes right before its contents and the names of one directory are in the
order of their characters. One of the directories is the working directory. Every entry but the top lies in a directory
(`FileTree.closed`), and `put?` and `erase?` keep it that way.
-/

namespace DocLint

/-- Where an entry of a file tree is: the names that lead to it from the top. -/
abbrev Place := List Text

/-- What a place of a file tree holds. -/
inductive Entry
  | file (bytes : ByteArray)
  | directory
  /-- A link to wherever the path leads from the directory of the link. -/
  | link (target : Path)

/-- The entry is a directory. -/
def Entry.isDirectory : Entry → Bool
  | directory => true
  | _ => false

/-- The most bytes that a name has. -/
def Place.maxNameBytes : Nat := 255

/-- The name can be that of an entry. -/
def Place.isName (name : Text) : Bool :=
  Path.leads name && name != Path.above && !name.contains '/' && !name.contains '\x00' &&
    name.byteCount ≤ maxNameBytes

/-- Entries in the order of their places. -/
abbrev EntryList := List (Place × Entry)

namespace EntryList

/-- Sets the entry at a place, in place of one that is there. -/
def set (place : Place) (entry : Entry) : EntryList → EntryList
  | [] => [(place, entry)]
  | e :: rest =>
    if place < e.1 then (place, entry) :: e :: rest
    else if place = e.1 then (place, entry) :: rest
    else e :: set place entry rest

theorem mem_set_self (place : Place) (entry : Entry) : ∀ l : EntryList, (place, entry) ∈ set place entry l
  | [] => by simp [set]
  | e :: rest => by
    unfold set
    split
    · simp
    · split
      · simp
      · exact List.mem_cons_of_mem _ (mem_set_self place entry rest)

theorem mem_of_mem_set {place : Place} {entry : Entry} {x : Place × Entry} :
    ∀ {l : EntryList}, x ∈ set place entry l → x = (place, entry) ∨ x ∈ l
  | [], h => by simpa [set] using h
  | e :: rest, h => by
    unfold set at h
    split at h
    · simpa using h
    · split at h
      · rcases List.mem_cons.mp h with h | h
        · exact .inl h
        · exact .inr (List.mem_cons_of_mem _ h)
      · rcases List.mem_cons.mp h with h | h
        · exact .inr (h ▸ List.mem_cons_self)
        · exact (mem_of_mem_set h).imp_right (List.mem_cons_of_mem _)

theorem mem_set_of_mem {place : Place} {entry : Entry} {x : Place × Entry} :
    ∀ {l : EntryList}, x ∈ l → x.1 ≠ place → x ∈ set place entry l
  | e :: rest, h, hne => by
    unfold set
    split
    · exact List.mem_cons_of_mem _ h
    · rename_i hlt
      split
      · rename_i heq
        rcases List.mem_cons.mp h with h | h
        · exact absurd (h ▸ heq.symm) hne
        · exact List.mem_cons_of_mem _ h
      · rcases List.mem_cons.mp h with h | h
        · exact h ▸ List.mem_cons_self
        · exact List.mem_cons_of_mem _ (mem_set_of_mem h hne)

/-- Of two places that differ, one comes first. -/
theorem lt_of_not_lt_of_ne {p q : Place} (h : ¬ p < q) (hne : p ≠ q) : q < p :=
  Decidable.byContradiction fun h' => hne (List.le_antisymm (List.not_lt.mp h') (List.not_lt.mp h))

theorem pairwise_set (place : Place) (entry : Entry) :
    ∀ {l : EntryList}, l.Pairwise (fun a b => a.1 < b.1) → (set place entry l).Pairwise fun a b => a.1 < b.1
  | [], _ => by simp [set]
  | e :: rest, h => by
    have hrest := List.pairwise_cons.mp h
    unfold set
    split
    · rename_i hlt
      refine List.pairwise_cons.mpr ⟨fun x hx => ?_, h⟩
      rcases List.mem_cons.mp hx with hx | hx
      · exact hx ▸ hlt
      · exact List.lt_trans hlt (hrest.1 x hx)
    · rename_i hlt
      split
      · rename_i heq
        exact List.pairwise_cons.mpr ⟨fun x hx => heq ▸ hrest.1 x hx, hrest.2⟩
      · rename_i hne
        refine List.pairwise_cons.mpr ⟨fun x hx => ?_, pairwise_set place entry hrest.2⟩
        rcases mem_of_mem_set hx with hx | hx
        · exact hx ▸ lt_of_not_lt_of_ne hlt hne
        · exact hrest.1 x hx

/-- Entries in strict order differ in their places. -/
theorem eq_of_mem {l : EntryList} (h : l.Pairwise fun a b => a.1 < b.1) {p : Place} {e f : Entry}
    (he : (p, e) ∈ l) (hf : (p, f) ∈ l) : e = f := by
  induction l with
  | nil => cases he
  | cons x rest ih =>
    have hrest := List.pairwise_cons.mp h
    rcases List.mem_cons.mp he with he | he <;> rcases List.mem_cons.mp hf with hf | hf
    · exact congrArg Prod.snd (he.trans hf.symm)
    · exact absurd (he ▸ hrest.1 _ hf) (List.lt_irrefl _)
    · exact absurd (hf ▸ hrest.1 _ he) (List.lt_irrefl _)
    · exact ih hrest.2 he hf

/-- The place holds a directory, by the list. -/
def listsDirectory (l : EntryList) (place : Place) : Bool := l.any fun e => e.1 = place && e.2.isDirectory

theorem mem_of_listsDirectory {l : EntryList} {place : Place} (h : listsDirectory l place = true) :
    (place, Entry.directory) ∈ l := by
  obtain ⟨⟨other, entry⟩, hmem, heq⟩ := List.any_eq_true.mp h
  obtain ⟨hplace, hdirectory⟩ := Bool.and_eq_true_iff.mp heq
  cases entry with
  | directory => exact of_decide_eq_true hplace ▸ hmem
  | file | link => cases hdirectory

/-- Every entry lies in a directory, if the list has one for each of them. -/
theorem closed_of_all {l : EntryList} (h : l.all (fun e => e.1.isEmpty || listsDirectory l e.1.dropLast) = true)
    (place : Place) (name : Text) (entry : Entry) (hmem : (place ++ [name], entry) ∈ l) :
    (place, Entry.directory) ∈ l := by
  have hentry := List.all_eq_true.mp h _ hmem
  rw [List.dropLast_concat, Bool.or_eq_true] at hentry
  exact mem_of_listsDirectory (hentry.resolve_left (by simp))

end EntryList

/-- A tree of files, directories and links, and the directory that one works in. -/
structure FileTree where
  entries : EntryList
  /-- Where paths start that do not start at the top. -/
  workDir : Place
  /-- The entries are in the order of their places, and no two have the same place. -/
  sorted : entries.Pairwise fun a b => a.1 < b.1
  /-- The top is a directory. -/
  top : ([], Entry.directory) ∈ entries
  /-- So is the working directory. -/
  workDir_mem : (workDir, Entry.directory) ∈ entries
  /-- Every other entry lies in a directory. -/
  closed : ∀ place name entry, (place ++ [name], entry) ∈ entries → (place, Entry.directory) ∈ entries
  /-- Places are made of names. -/
  named : ∀ e ∈ entries, ∀ name ∈ e.1, Place.isName name = true

namespace FileTree

/-- A tree without files, in which one works two directories below the top. -/
def empty : FileTree where
  entries := [([], .directory), (["tmp".toList], .directory), (["tmp".toList, "work".toList], .directory)]
  workDir := ["tmp".toList, "work".toList]
  sorted := by decide
  top := by simp
  workDir_mem := by simp
  closed := EntryList.closed_of_all (by decide)
  named := by decide

/-- What a place holds. -/
def get? (t : FileTree) (place : Place) : Option Entry := (t.entries.find? (·.1 = place)).map (·.2)

theorem mem_of_get? {t : FileTree} {place : Place} {entry : Entry} (h : t.get? place = some entry) :
    (place, entry) ∈ t.entries := by
  obtain ⟨x, hx, rfl⟩ := Option.map_eq_some_iff.mp h
  have hp : x.1 = place := by simpa using List.find?_some hx
  exact hp ▸ List.mem_of_find?_eq_some hx

theorem get?_of_mem {t : FileTree} {place : Place} {entry : Entry} (h : (place, entry) ∈ t.entries) :
    t.get? place = some entry := by
  cases hf : t.get? place with
  | some e => exact congrArg some (EntryList.eq_of_mem t.sorted (mem_of_get? hf) h)
  | none =>
    have := List.find?_eq_none.mp (Option.map_eq_none_iff.mp hf) _ h
    simp at this

/-- A place holds an entry exactly when the entry is listed there. -/
theorem get?_eq_some_iff {t : FileTree} {place : Place} {entry : Entry} :
    t.get? place = some entry ↔ (place, entry) ∈ t.entries := ⟨mem_of_get?, get?_of_mem⟩

/-- The place holds a directory. -/
def hasDirectory (t : FileTree) (place : Place) : Bool := (t.get? place).any Entry.isDirectory

theorem hasDirectory_iff {t : FileTree} {place : Place} :
    t.hasDirectory place = true ↔ (place, Entry.directory) ∈ t.entries := by
  rw [← get?_eq_some_iff, hasDirectory]
  cases t.get? place with
  | none => simp
  | some e => cases e <;> simp [Entry.isDirectory]

/-- The place can be set to the entry: it has a name, lies in a directory, and no directory gets lost. -/
def Admits (t : FileTree) (place : Place) (entry : Entry) : Prop :=
  place ≠ [] ∧ (∀ name ∈ place, Place.isName name = true) ∧ t.hasDirectory place.dropLast = true ∧
    (t.hasDirectory place = true → entry.isDirectory = true)

instance (t : FileTree) (place : Place) (entry : Entry) : Decidable (t.Admits place entry) := by
  unfold Admits; infer_instance

theorem Admits.directory_mem {t : FileTree} {place dir : Place} {entry : Entry} (h : t.Admits place entry)
    (hdir : (dir, Entry.directory) ∈ t.entries) : (dir, Entry.directory) ∈ EntryList.set place entry t.entries := by
  by_cases heq : dir = place
  · have hentry : entry = .directory := by
      have := h.2.2.2 (hasDirectory_iff.mpr (heq ▸ hdir))
      cases entry <;> simp_all [Entry.isDirectory]
    rw [heq, ← hentry]
    exact EntryList.mem_set_self _ _ _
  · exact EntryList.mem_set_of_mem hdir heq

/-- The tree with a place set to an entry that it admits. -/
def put (t : FileTree) (place : Place) (entry : Entry) (h : t.Admits place entry) : FileTree where
  entries := EntryList.set place entry t.entries
  workDir := t.workDir
  sorted := EntryList.pairwise_set place entry t.sorted
  top := h.directory_mem t.top
  workDir_mem := h.directory_mem t.workDir_mem
  closed := by
    intro dir name e he
    rcases EntryList.mem_of_mem_set he with he | he
    · have hplace : dir ++ [name] = place := congrArg Prod.fst he
      have hp := h.2.2.1
      rw [← hplace, List.dropLast_concat] at hp
      exact h.directory_mem (hasDirectory_iff.mp hp)
    · exact h.directory_mem (t.closed dir name e he)
  named := by
    intro e he
    rcases EntryList.mem_of_mem_set he with he | he
    · exact he ▸ h.2.1
    · exact t.named e he

/-- The tree with a place set to an entry, if it admits that. -/
def put? (t : FileTree) (place : Place) (entry : Entry) : Option FileTree :=
  if h : t.Admits place entry then some (t.put place entry h) else none

theorem directory_mem_filter {t : FileTree} {place dir : Place} (h : t.hasDirectory place = false)
    (hdir : (dir, Entry.directory) ∈ t.entries) : (dir, Entry.directory) ∈ t.entries.filter fun e => e.1 ≠ place := by
  refine List.mem_filter.mpr ⟨hdir, ?_⟩
  have hne : dir ≠ place := by
    intro heq
    rw [← heq, hasDirectory_iff.mpr hdir] at h
    cases h
  simpa using hne

/-- The tree without a place that holds no directory. -/
def erase (t : FileTree) (place : Place) (h : t.hasDirectory place = false) : FileTree where
  entries := t.entries.filter fun e => e.1 ≠ place
  workDir := t.workDir
  sorted := t.sorted.filter _
  top := directory_mem_filter h t.top
  workDir_mem := directory_mem_filter h t.workDir_mem
  closed dir name e he := directory_mem_filter h (t.closed dir name e (List.mem_filter.mp he).1)
  named := fun e he => t.named e (List.mem_filter.mp he).1

/-- The tree without a place, unless it holds a directory. -/
def erase? (t : FileTree) (place : Place) : Option FileTree :=
  if h : t.hasDirectory place = false then some (t.erase place h) else none

end FileTree
end DocLint
