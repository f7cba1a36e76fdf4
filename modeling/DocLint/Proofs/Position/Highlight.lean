import DocLint.Proofs.Console.Emphasis
import DocLint.Proofs.Position.Access

/-!
# Highlighting by bytes

Types can be highlighted with one mark for each byte of the text: the bytes of every occurrence are marked, and the text
is cut where the mark changes (`Positional.highlight`). All bytes of a character get the same mark, so the marks of the
bytes are those of the characters, each as often as its character has bytes (`Positional.byteMarks_eq`). Hence no cut
falls into a character, and the result is the one that the marks of the characters give
(`Positional.highlight_eq`).
-/

namespace DocLint
namespace Positional

open Emphasis (marks marksFrom runs spread)
open Text (byteCount)

/-! ## The program -/

/-- The bytes at which the leftmost occurrences of `needle` begin that do not overlap. The text begins at the byte
`offset`, and its first `inside` characters belong to an occurrence before them. -/
def hitsFrom (needle : Text) : (inside offset : Nat) → Text → List Nat
  | _, _, [] => []
  | inside + 1, offset, c :: rest => hitsFrom needle inside (offset + c.utf8Size) rest
  | 0, offset, c :: rest =>
    if needle.isPrefixOf (c :: rest) then
      offset :: hitsFrom needle (needle.length - 1) (offset + c.utf8Size) rest
    else hitsFrom needle 0 (offset + c.utf8Size) rest

/-- The marks with those from the position `i` up to `j` set. -/
def setMarks (marked : List Bool) (i j : Nat) : Checked (List Bool) :=
  if i ≤ j ∧ j ≤ marked.length then .ok (marked.take i ++ List.replicate (j - i) true ++ marked.drop j)
  else .error .outOfRange

/-- The marks with those of a type set. -/
def markType (s : Text) (marked : List Bool) (type : Text) : Checked (List Bool) :=
  (hitsFrom type 0 0 s).foldlM (fun marked start => setMarks marked start (start + type.byteCount)) marked

/-- The marks of the bytes of a text. -/
def byteMarks (types : List Text) (s : Text) : Checked (List Bool) :=
  (types.filter (!·.isEmpty)).foldlM (markType s) (List.replicate s.byteCount false)

/-- The first position from `stop` on, of `size` ones, with another mark than `mark`. -/
def runEnd (marked : List Bool) (mark : Bool) (size stop : Nat) : Checked Nat :=
  if stop < size then do
    let next ← item marked stop
    if next = mark then runEnd marked mark size (stop + 1) else return stop
  else return stop
termination_by size - stop

/-- The text from the byte `start` on with its marked runs in red. -/
def renderFrom (colored : Bool) (s : Text) (marked : List Bool) (start : Nat) : Checked Text :=
  if start < s.byteCount then do
    let red ← item marked start
    let stop ← runEnd marked red s.byteCount start
    let run ← textSlice s start stop
    if start < stop then do
      let rest ← renderFrom colored s marked stop
      return (if red then Color.red.paint colored run else run) ++ rest
    else .error .standstill
  else return []
termination_by s.byteCount - start

/-- The text with every occurrence of the types in red. -/
def highlight (colored : Bool) (types : List Text) (s : Text) : Checked Text := do
  let marked ← byteMarks types s
  renderFrom colored s marked 0

/-! ## Marks of bytes -/

section Marks

variable {needle s : Text}

/-- The marks of the bytes of marked characters. -/
def ofBytes (pairs : List (Char × Bool)) : List Bool := pairs.flatMap fun pair => List.replicate pair.1.utf8Size pair.2

theorem ofBytes_cons (c : Char) (mark : Bool) (pairs : List (Char × Bool)) :
    ofBytes ((c, mark) :: pairs) = List.replicate c.utf8Size mark ++ ofBytes pairs := List.flatMap_cons

theorem ofBytes_append (front back : List (Char × Bool)) : ofBytes (front ++ back) = ofBytes front ++ ofBytes back :=
  List.flatMap_append

/-- Characters with one mark have bytes with this mark. -/
theorem ofBytes_spread (run : Text × Bool) : ofBytes (spread run) = List.replicate run.1.byteCount run.2 := by
  obtain ⟨s, mark⟩ := run
  induction s with
  | nil => rfl
  | cons c s ih =>
    have hcons : spread (c :: s, mark) = (c, mark) :: spread (s, mark) := rfl
    rw [hcons, ofBytes_cons, ih, Text.byteCount_cons, List.replicate_add]

theorem length_ofBytes_zip {marked : List Bool} (h : marked.length = s.length) :
    (ofBytes (s.zip marked)).length = s.byteCount := by
  induction s generalizing marked with
  | nil => rfl
  | cons c s ih =>
    obtain ⟨mark, marked, rfl⟩ := List.exists_cons_of_length_eq_add_one h
    rw [List.zip_cons_cons, ofBytes_cons, List.length_append, List.length_replicate, ih (Nat.succ_inj.1 h)]
    rfl

theorem setMarks_append (front middle back : List Bool) :
    setMarks (front ++ (middle ++ back)) front.length (front.length + middle.length) =
      .ok (front ++ (List.replicate middle.length true ++ back)) := by
  have hdrop : (front ++ (middle ++ back)).drop (front.length + middle.length) = back := by
    rw [← List.append_assoc, ← List.length_append, List.drop_left]
  rw [setMarks, if_pos ⟨Nat.le_add_right _ _, by simp⟩, List.take_left, hdrop, Nat.add_sub_cancel_left,
    List.append_assoc]

/-- Inside of an occurrence nothing is looked for. -/
theorem marksFrom_inside (needle front back : Text) :
    marksFrom needle front.length (front ++ back) = List.replicate front.length true ++ marksFrom needle 0 back := by
  induction front with
  | nil => rfl
  | cons c front ih => exact congrArg (true :: ·) ih

theorem hitsFrom_inside (needle front back : Text) (offset : Nat) :
    hitsFrom needle front.length offset (front ++ back) = hitsFrom needle 0 (offset + front.byteCount) back := by
  induction front generalizing offset with
  | nil => rfl
  | cons c front ih =>
    rw [List.length_cons, List.cons_append, hitsFrom, ih, Text.byteCount_cons, Nat.add_assoc]

theorem marksFrom_of_occurs (hne : needle ≠ []) (back : Text) :
    marksFrom needle 0 (needle ++ back) = List.replicate needle.length true ++ marksFrom needle 0 back := by
  obtain ⟨c, rest, rfl⟩ := List.exists_cons_of_ne_nil hne
  have hocc : (c :: rest).isPrefixOf (c :: (rest ++ back)) = true :=
    List.isPrefixOf_iff_prefix.2 (List.prefix_append (c :: rest) back)
  rw [List.cons_append, marksFrom, if_pos hocc]
  exact congrArg (true :: ·) (marksFrom_inside _ rest back)

theorem hitsFrom_of_occurs (hne : needle ≠ []) (back : Text) (offset : Nat) :
    hitsFrom needle 0 offset (needle ++ back) = offset :: hitsFrom needle 0 (offset + needle.byteCount) back := by
  obtain ⟨c, rest, rfl⟩ := List.exists_cons_of_ne_nil hne
  have hocc : (c :: rest).isPrefixOf (c :: (rest ++ back)) = true :=
    List.isPrefixOf_iff_prefix.2 (List.prefix_append (c :: rest) back)
  rw [List.cons_append, hitsFrom, if_pos hocc, Text.byteCount_cons, ← Nat.add_assoc]
  exact congrArg (offset :: ·) (hitsFrom_inside _ rest back _)

theorem zipWith_or_replicate (marked : List Bool) :
    List.zipWith (· || ·) marked (List.replicate marked.length true) = List.replicate marked.length true := by
  induction marked with
  | nil => rfl
  | cons mark marked ih =>
    rw [List.length_cons, List.replicate_succ, List.zipWith_cons_cons, ih, Bool.or_true]

theorem zip_replicate (s : Text) (mark : Bool) : s.zip (List.replicate s.length mark) = spread (s, mark) := by
  induction s with
  | nil => rfl
  | cons c s ih =>
    rw [List.length_cons, List.replicate_succ, List.zip_cons_cons, ih]
    rfl

/-- A search takes a text apart from the left: at an occurrence it goes on behind it, elsewhere with the next
character. -/
theorem search_induction (hne : needle ≠ []) {motive : Text → Prop} (nil : motive [])
    (found : ∀ back, motive back → motive (needle ++ back))
    (missed : ∀ c s, ¬ needle <+: c :: s → motive s → motive (c :: s)) (s : Text) : motive s := by
  have hpos : 0 < needle.length := List.length_pos_iff_ne_nil.2 hne
  induction hn : s.length using Nat.strong_induction_on generalizing s with
  | h n ih =>
    by_cases hocc : needle <+: s
    · obtain ⟨back, rfl⟩ := hocc
      rw [List.length_append] at hn
      exact found back (ih back.length (by omega) back rfl)
    · cases s with
      | nil => exact nil
      | cons c s => exact missed c s hocc (ih s.length (by rw [List.length_cons] at hn; omega) s rfl)

/-- Marking the bytes of all occurrences marks their characters. The marks `front` are those of the bytes before the
text. -/
theorem foldlM_setMarks (hne : needle ≠ []) {marked : List Bool} (hlength : marked.length = s.length)
    (front : List Bool) :
    (hitsFrom needle 0 front.length s).foldlM
        (fun marked start => setMarks marked start (start + needle.byteCount)) (front ++ ofBytes (s.zip marked)) =
      .ok (front ++ ofBytes (s.zip (List.zipWith (· || ·) marked (marksFrom needle 0 s)))) := by
  induction s using search_induction hne generalizing marked front with
  | nil => rfl
  | found back ih =>
    obtain ⟨within, behind, rfl, hwithin⟩ : ∃ within behind, marked = within ++ behind ∧ within.length = needle.length :=
      ⟨marked.take needle.length, marked.drop needle.length, (List.take_append_drop _ _).symm, by
        rw [List.length_take, hlength, List.length_append]; omega⟩
    have hbehind : behind.length = back.length := by
      rw [List.length_append, List.length_append, hwithin] at hlength
      omega
    have hset : setMarks (front ++ (ofBytes (needle.zip within) ++ ofBytes (back.zip behind))) front.length
        (front.length + needle.byteCount) =
          .ok (front ++ List.replicate needle.byteCount true ++ ofBytes (back.zip behind)) := by
      rw [← length_ofBytes_zip hwithin, setMarks_append, List.append_assoc]
    have hrest := ih hbehind (front ++ List.replicate needle.byteCount true)
    rw [List.length_append, List.length_replicate] at hrest
    rw [hitsFrom_of_occurs hne, marksFrom_of_occurs hne, List.zip_append hwithin.symm, ofBytes_append, List.foldlM_cons,
      hset, ok_bind, hrest, List.zipWith_append (by rw [List.length_replicate, hwithin]), ← hwithin, zipWith_or_replicate,
      List.zip_append (by rw [List.length_replicate, hwithin]), hwithin, zip_replicate, ofBytes_append, ofBytes_spread,
      List.append_assoc]
  | missed c s hocc ih =>
    obtain ⟨mark, marked, rfl⟩ := List.exists_cons_of_length_eq_add_one hlength
    have hno : ¬ needle.isPrefixOf (c :: s) = true := fun h => hocc (List.isPrefixOf_iff_prefix.1 h)
    have hrest := ih (Nat.succ_inj.1 hlength) (front ++ List.replicate c.utf8Size mark)
    rw [List.length_append, List.length_replicate] at hrest
    rw [hitsFrom, if_neg hno, marksFrom, if_neg hno, List.zipWith_cons_cons, Bool.or_false, List.zip_cons_cons,
      List.zip_cons_cons, ofBytes_cons, ofBytes_cons, ← List.append_assoc, ← List.append_assoc, hrest]

/-- **The marks of the bytes are those of the characters.** -/
theorem byteMarks_eq (types : List Text) (s : Text) : byteMarks types s = .ok (ofBytes (s.zip (marks types s))) := by
  have hfold : ∀ (types : List Text) {marked : List Bool}, (∀ type ∈ types, type ≠ []) → marked.length = s.length →
      types.foldlM (markType s) (ofBytes (s.zip marked)) = .ok (ofBytes (s.zip
        (types.foldl (fun marked type => List.zipWith (· || ·) marked (marksFrom type 0 s)) marked))) := by
    intro types
    induction types with
    | nil => exact fun _ _ => rfl
    | cons type types ih =>
      intro marked hne hlength
      obtain ⟨htype, htypes⟩ := List.forall_mem_cons.1 hne
      have hmark := foldlM_setMarks htype hlength []
      have hsize : (List.zipWith (· || ·) marked (marksFrom type 0 s)).length = s.length := by
        rw [List.length_zipWith, Emphasis.length_marksFrom, hlength, Nat.min_self]
      rw [List.length_nil, List.nil_append, List.nil_append] at hmark
      rw [List.foldlM_cons, markType, hmark, ok_bind, ih htypes hsize, List.foldl_cons]
  have hstart : List.replicate s.byteCount false = ofBytes (s.zip (s.map fun _ => false)) := by
    rw [List.map_const', zip_replicate, ofBytes_spread]
  rw [byteMarks, hstart, hfold _ (fun type h => by simpa using (List.mem_filter.1 h).2) (List.length_map _)]
  rfl

end Marks

/-! ## Runs of bytes -/

section Runs

/-- A run ends where another mark follows or nothing. -/
theorem runEnd_eq {mark : Bool} {back : List Bool} (hback : back.head? ≠ some mark) (n : Nat) (front : List Bool) :
    runEnd (front ++ (List.replicate n mark ++ back)) mark (front.length + (n + back.length)) front.length =
      .ok (front.length + n) := by
  induction n generalizing front with
  | zero =>
    rw [runEnd, List.replicate_zero, List.nil_append]
    cases back with
    | nil => rw [if_neg (by simp)]; rfl
    | cons next back =>
      have hnext : next ≠ mark := fun h => hback (congrArg some h)
      rw [if_pos (by simp), item_append, ok_bind, if_neg hnext]
      rfl
  | succ n ih =>
    have hlist : front ++ (List.replicate (n + 1) mark ++ back) =
        (front ++ [mark]) ++ (List.replicate n mark ++ back) := by
      rw [List.replicate_succ, List.append_assoc]; rfl
    have hsize : front.length + (n + 1 + back.length) = (front ++ [mark]).length + (n + back.length) := by
      rw [List.length_append, List.length_singleton]; omega
    have hend := ih (front ++ [mark])
    rw [← hlist, ← hsize, List.length_append, List.length_singleton] at hend
    rw [runEnd, if_pos (by omega), List.replicate_succ, List.cons_append, item_append, ok_bind, if_pos rfl,
      ← List.cons_append, ← List.replicate_succ, hend, Nat.add_assoc, Nat.add_comm 1]

theorem length_bytes_runs (pieces : List (Text × Bool)) :
    (pieces.flatMap fun run => List.replicate run.1.byteCount run.2).length = byteCount (pieces.flatMap (·.1)) := by
  induction pieces with
  | nil => rfl
  | cons run pieces ih =>
    rw [List.flatMap_cons, List.flatMap_cons, List.length_append, List.length_replicate, ih, Text.byteCount_append]

/-- The rounds of the loop go through the runs. What comes before them is `front`. -/
theorem renderFrom_eq (colored : Bool) (pieces : List (Text × Bool)) (hne : ∀ run ∈ pieces, run.1 ≠ [])
    (hchain : pieces.IsChain fun run next => run.2 ≠ next.2) (front : Text) (marked : List Bool)
    (hmarked : marked.length = front.byteCount) :
    renderFrom colored (front ++ pieces.flatMap (·.1))
        (marked ++ pieces.flatMap fun run => List.replicate run.1.byteCount run.2) front.byteCount =
      .ok (pieces.flatMap fun run => if run.2 then Color.red.paint colored run.1 else run.1) := by
  induction pieces generalizing front marked with
  | nil => rw [renderFrom, List.flatMap_nil, List.append_nil, if_neg (Nat.lt_irrefl _)]; rfl
  | cons run pieces ih =>
    obtain ⟨s, mark⟩ := run
    obtain ⟨hrun, hpieces⟩ := List.forall_mem_cons.1 hne
    obtain ⟨hnext, hchain⟩ := List.isChain_cons.1 hchain
    have hpos : 0 < s.byteCount := Nat.lt_of_lt_of_le (List.length_pos_iff_ne_nil.2 hrun) (Text.length_le_byteCount s)
    obtain ⟨n, hn⟩ := Nat.exists_eq_add_one_of_ne_zero (Nat.pos_iff_ne_zero.1 hpos)
    have hback : (pieces.flatMap fun run => List.replicate run.1.byteCount run.2).head? ≠ some mark := by
      cases pieces with
      | nil => simp
      | cons next pieces =>
        have hlength := Text.length_le_byteCount next.1
        have hnonempty := List.length_pos_iff_ne_nil.2 (hpieces next List.mem_cons_self)
        obtain ⟨k, hk⟩ := Nat.exists_eq_add_one_of_ne_zero (n := next.1.byteCount) (by omega)
        rw [List.flatMap_cons, hk, List.replicate_succ, List.cons_append, List.head?_cons]
        exact fun h => hnext next rfl (Option.some_inj.1 h).symm
    have hitem : item (marked ++ (List.replicate s.byteCount mark ++
        pieces.flatMap fun run => List.replicate run.1.byteCount run.2)) front.byteCount = .ok mark := by
      rw [hn, List.replicate_succ, List.cons_append, ← hmarked, item_append]
    have hend := runEnd_eq hback s.byteCount marked
    have hslice := textSlice_append front s (pieces.flatMap (·.1))
    have hrest := ih hpieces hchain (front ++ s) (marked ++ List.replicate s.byteCount mark)
      (by rw [List.length_append, List.length_replicate, hmarked, Text.byteCount_append])
    rw [hmarked, length_bytes_runs] at hend
    rw [List.append_assoc] at hslice
    rw [List.append_assoc, List.append_assoc, Text.byteCount_append] at hrest
    rw [List.flatMap_cons, List.flatMap_cons, List.flatMap_cons]
    dsimp only
    rw [renderFrom, Text.byteCount_append, Text.byteCount_append, if_pos (by omega), hitem, ok_bind, hend, ok_bind,
      hslice, ok_bind, if_pos (by omega), hrest]
    rfl

/-- **No access of the program fails**, and its result is the highlighted text. -/
theorem highlight_eq (colored : Bool) (types : List Text) (s : Text) :
    highlight colored types s = .ok (Emphasis.render colored types s) := by
  have hbytes : ofBytes (s.zip (marks types s)) =
      (runs (s.zip (marks types s))).flatMap fun run => List.replicate run.1.byteCount run.2 := by
    have h : ofBytes ((runs (s.zip (marks types s))).flatMap spread) =
        (runs (s.zip (marks types s))).flatMap fun run => ofBytes (spread run) := List.flatMap_assoc
    rw [Emphasis.flatMap_runs] at h
    simpa only [ofBytes_spread] using h
  have hrender := renderFrom_eq colored (runs (s.zip (marks types s))) Emphasis.ne_nil_of_mem_runs
    (Emphasis.isChain_runs _) [] [] rfl
  rw [List.nil_append, List.nil_append, Emphasis.fst_flatMap_runs, ← hbytes] at hrender
  rw [highlight, byteMarks_eq, ok_bind]
  exact hrender

end Runs
end Positional

namespace Emphasis

/-- **Highlighting keeps the text, and the order of the types does not matter.** Without colors the text stays as it is.
With colors a terminal shows the same text, with exactly the characters in red that lie in a leftmost occurrence of a
type; every longest run of red characters is colored once; no cut by bytes falls into a character; and types with the
same non-empty ones among them give the same result. -/
theorem render_highlights (types : List Text) (s : Text) (hs : Color.escape ∉ s) :
    render false types s = s ∧
    (shown false (render true types s)).map (·.1) = s ∧
    (∀ i : Nat, ((shown false (render true types s))[i]?).map (·.2) = some true ↔ IsCovered types s i) ∧
    (∃ pieces : List (Text × Bool), pieces.flatMap (·.1) = s ∧ (∀ run ∈ pieces, run.1 ≠ []) ∧
      (pieces.IsChain fun run next => run.2 ≠ next.2) ∧ render true types s = pieces.flatMap written) ∧
    (∀ colored, Positional.highlight colored types s = .ok (render colored types s)) ∧
    ∀ types' : List Text, (∀ type, type ≠ [] → (type ∈ types' ↔ type ∈ types)) →
      ∀ colored, render colored types' s = render colored types s := by
  refine ⟨render_false types s, ?_, shown_render_eq_true_iff hs, ?_,
    fun colored => Positional.highlight_eq colored types s,
    fun types' h colored => ?_⟩
  · rw [shown_render hs, zip_marks_fst]
  · exact ⟨runs (s.zip (marks types s)), fst_flatMap_runs types s, ne_nil_of_mem_runs, isChain_runs _, render_true hs⟩
  · rw [render, render, marks_congr h]

/-- Types that overlap and touch, in a text with characters of more than one byte. -/
theorem render_highlights_overlapping :
    let s := "aëab ëab".toList
    let types := ["aë".toList, [], "ëa".toList]
    Color.escape ∉ s ∧ Positional.highlight true types s = .ok (render true types s) ∧
      render true ["ëa".toList, "aë".toList, "ëa".toList] s = render true types s := by
  intro s types
  have hs : Color.escape ∉ s := by decide
  obtain ⟨-, -, -, -, hhighlight, horder⟩ := render_highlights types s hs
  refine ⟨hs, hhighlight true, horder _ (fun type hne => ?_) true⟩
  simp only [types, List.mem_cons, List.not_mem_nil, or_false, hne, false_or]
  exact ⟨fun h => by rcases h with h | h | h <;> simp [h], fun h => by rcases h with h | h <;> simp [h]⟩

end Emphasis
end DocLint
