import DocLint.Proofs.Method.Ending
import DocLint.Proofs.Position.Header
import DocLint.Proofs.Position.Parameter
import DocLint.Proofs.Position.Signature

/-!
# The scan of a file by positions

The methods of a file can be found by a loop with a position in its lines, in which a round reads one line, or all lines
of a declaration, and moves on behind them (`Positional.round`). A declaration takes no more lines than are left, so the
position never passes the end, and every round moves it on (`Positional.Reached.advances`). The braces of a method are
counted from its declaration on; their count stays within the bytes that are read (`Positional.Within`), so no round
fails in a file shorter than `2 ^ 31` bytes. The rounds are the steps of the scan (`Positional.round_eq`), so the loop
comes to the end (`Positional.exists_reached_end`), where it has found the methods of the file
(`Positional.Reached.methods_eq`). With the readers of the other modules this is `Positional.readers_never_fault`.
-/

namespace DocLint
namespace Positional

open Text (byteCount trim)

/-! ## The program -/

/-- The declaration that a text makes with the first of the lines behind it that closes its parentheses. The text was
read off the lines from the position `i` up to the position `j`, at which the given lines begin. -/
def extendFrom (i : Nat) : (j : Nat) → (joined : Text) → List Text → Checked (Option Candidate)
  | _, _, [] => return none
  | j, joined, line :: rest => do
    let balance ← parenBalance (joined ++ ' ' :: trim line)
    if balance ≤ 0 then do
      match ← readSignature (joined ++ ' ' :: trim line) with
      | none => return none
      | some signature => do
        let size ← minus j i
        return some ⟨signature, joined ++ ' ' :: trim line, size + 1⟩
    else extendFrom i (j + 1) (joined ++ ' ' :: trim line) rest

/-- The declaration that the lines from a position on begin with. -/
def matchAt (lines : List Text) (i : Nat) : Checked (Option Candidate) := do
  let line ← item lines i
  match ← readSignature (trim line) with
  | some signature => return some ⟨signature, trim line, 1⟩
  | none => do
    let opened ← opensDeclaration (trim line)
    if opened then extendFrom i (i + 1) (trim line) ((lines.drop (i + 1)).take Candidate.maxContinuation)
    else return none

/-- The method after one more text of it. -/
def consume (method : UnclosedMethod) (text : Text) : Checked UnclosedMethod :=
  text.foldlM (fun m c =>
    if c = '{' then do
      let depth ← int32 (m.depth + 1)
      return { m with depth := depth, braced := true }
    else if c = '}' then do
      let depth ← int32 (m.depth - 1)
      return { m with depth := depth }
    else return m) method

/-- The method when it ends at a line. -/
def finish (method : UnclosedMethod) (endLine : Nat) : Checked Method := do
  let params ← readParameters method.signature.text
  return ⟨⟨method.signature, params, method.startLine, endLine⟩, method.comment⟩

/-- Where the loop is: the position of the next line, what it is in the middle of, and the methods that have ended. -/
structure Cursor where
  place : Nat
  state : ScanState
  methods : List Method

/-- The cursor behind a text of a method, which ends before the position `place`. -/
def feed (methods : List Method) (method : UnclosedMethod) (text : Text) (place : Nat) : Checked Cursor := do
  let method ← consume method text
  if method.endsAt text then do
    let ended ← finish method place
    return ⟨place, .free none, methods ++ [ended]⟩
  else return ⟨place, .inMethod method, methods⟩

/-- One round of the loop. -/
def round (lines : List Text) (c : Cursor) : Checked Cursor := do
  let line ← item lines c.place
  let stripped := trim line
  match c.state with
  | .inComment comment => return ⟨c.place + 1, ScanState.readComment comment (c.place + 1) stripped, c.methods⟩
  | .inMethod method => feed c.methods method stripped (c.place + 1)
  | .free pending =>
    if DocComment.opens stripped then
      return ⟨c.place + 1, ScanState.beginComment (c.place + 1) stripped, c.methods⟩
    else do
      match ← matchAt lines c.place with
      | some found =>
        feed c.methods ⟨found.signature, pending, c.place + 1, 0, false⟩ found.text (c.place + found.size)
      | none =>
        return ⟨c.place + 1, .free (if ScanState.keepsComment stripped then pending else none), c.methods⟩

/-- The cursors that the loop comes to. -/
inductive Reached (lines : List Text) : Cursor → Prop
  | start : Reached lines ⟨0, .free none, []⟩
  | next {c c' : Cursor} : Reached lines c → c.place < lines.length → round lines c = .ok c' → Reached lines c'

/-! ## Bytes and counts -/

section Bytes

/-- How many bytes lines have. -/
def totalBytes (lines : List Text) : Nat := byteCount lines.flatten

theorem totalBytes_cons (line : Text) (lines : List Text) :
    totalBytes (line :: lines) = byteCount line + totalBytes lines :=
  Text.byteCount_append line lines.flatten

theorem totalBytes_append (above below : List Text) :
    totalBytes (above ++ below) = totalBytes above + totalBytes below := by
  rw [totalBytes, List.flatten_append, Text.byteCount_append]
  rfl

theorem byteCount_trim_le (s : Text) : byteCount (trim s) ≤ byteCount s := by
  obtain ⟨before, behind, -, heq⟩ := Text.exists_trim_append s
  have hcount := congrArg byteCount heq
  rw [Text.byteCount_append, Text.byteCount_append] at hcount
  omega

theorem byteCount_flatten_trim_le (lines : List Text) : byteCount (lines.map trim).flatten ≤ totalBytes lines := by
  induction lines with
  | nil => exact Nat.le_refl 0
  | cons line lines ih =>
    have hline := byteCount_trim_le line
    rw [List.map_cons, List.flatten_cons, Text.byteCount_append, totalBytes_cons]
    exact Nat.add_le_add hline ih

/-- Two characters stand in a text no more often than it has bytes. -/
theorem count_add_count_le {a b : Char} (hab : a ≠ b) (s : Text) : s.count a + s.count b ≤ byteCount s := by
  induction s with
  | nil => exact Nat.le_refl 0
  | cons c s ih =>
    have hpos := c.utf8Size_pos
    rw [List.count_cons, List.count_cons, Text.byteCount_cons]
    by_cases ha : c = a
    · subst ha
      rw [if_pos (beq_self_eq_true c), if_neg (by simpa using hab)]
      omega
    · rw [if_neg (by simpa using ha)]
      split <;> omega

end Bytes

/-! ## Declarations -/

section Declarations

/-- Each round of the loop takes one line, and their number is that of the positions passed. -/
theorem extendFrom_eq {i : Nat} (rest : List Text) {j : Nat} (hj : i < j) (more : Nat) (joined : Text)
    (hsize : joined.count '(' + joined.count ')' + totalBytes rest < int32Bound) :
    extendFrom i j joined (rest.take more) = .ok (Candidate.extend? more joined (j - i) rest) := by
  induction rest generalizing j more joined with
  | nil => cases more <;> rfl
  | cons line rest ih =>
    cases more with
    | zero => rfl
    | succ more =>
      have hcount : ∀ {c : Char}, Text.isBlank c = false → (joined ++ ' ' :: trim line).count c =
          joined.count c + line.count c := fun {c} hc => by
        have hspace : (' ' == c) = false := beq_eq_false_iff_ne.2 fun heq => by
          rw [← heq] at hc
          cases hc
        rw [List.count_append, List.count_cons, hspace, Text.count_trim hc]
        rfl
      have hline := count_add_count_le (a := '(') (b := ')') (by decide) line
      have hopen := hcount (c := '(') rfl
      have hclose := hcount (c := ')') rfl
      rw [totalBytes_cons] at hsize
      have hbalance := parenBalance_eq (s := joined ++ ' ' :: trim line) (by omega)
      rw [List.take_succ_cons, extendFrom, hbalance, ok_bind, Candidate.extend?]
      split
      · rw [readSignature_eq, ok_bind]
        cases Signature.ofLine? (joined ++ ' ' :: trim line) with
        | none => rfl
        | some signature =>
          dsimp only
          rw [minus_eq (Nat.le_of_lt hj)]
          rfl
      · have hnext := ih (j := j + 1) (Nat.lt_succ_of_lt hj) more (joined ++ ' ' :: trim line) (by omega)
        rwa [Nat.succ_sub (Nat.le_of_lt hj)] at hnext

/-- **No access fails on the way to a declaration.** -/
theorem matchAt_eq {above rest : List Text} {line : Text} (hsize : totalBytes (above ++ line :: rest) < int32Bound) :
    matchAt (above ++ line :: rest) above.length = .ok (Candidate.ofLines? (line :: rest)) := by
  have hcount := count_add_count_le (a := '(') (b := ')') (by decide) (trim line)
  have htrim := byteCount_trim_le line
  rw [totalBytes_append, totalBytes_cons] at hsize
  have hrest : (above ++ line :: rest).drop (above.length + 1) = rest := by
    rw [← List.drop_drop, List.drop_left, List.drop_one, List.tail_cons]
  rw [matchAt, item_append, ok_bind, readSignature_eq, ok_bind, Candidate.ofLines?]
  cases Signature.ofLine? (trim line) with
  | some signature => rfl
  | none =>
    have hextend := extendFrom_eq rest (Nat.lt_add_one above.length) Candidate.maxContinuation (trim line)
      (by omega)
    rw [Nat.add_sub_cancel_left] at hextend
    dsimp only
    rw [opensDeclaration_eq (by omega), ok_bind, hrest, hextend]
    split <;> rfl

/-- The text of a declaration has the braces of its lines, which are no more than these have bytes. -/
theorem braces_ofLines? {line : Text} {rest : List Text} {found : Candidate}
    (h : Candidate.ofLines? (line :: rest) = some found) :
    found.text.count '{' + found.text.count '}' ≤ totalBytes (line :: rest.take (found.size - 1)) := by
  have hcount := count_add_count_le (a := '{') (b := '}') (by decide)
    ((line :: rest.take (found.size - 1)).map trim).flatten
  have htrim := byteCount_flatten_trim_le (line :: rest.take (found.size - 1))
  rw [Candidate.text_ofLines? h, Candidate.count_joined_trim rfl, Candidate.count_joined_trim rfl]
  omega

end Declarations

/-! ## Methods -/

section Methods

variable {method : UnclosedMethod} {text : Text}

/-- The depth of the method that is read is within a bound. -/
def Within (n : Nat) : ScanState → Prop
  | .inMethod method => method.depth.natAbs ≤ n
  | .free _ | .inComment _ => True

/-- The depth of a method moves by one for each brace. -/
theorem consume_eq (method : UnclosedMethod) (h : method.depth.natAbs + (text.count '{' + text.count '}') < int32Bound) :
    consume method text = .ok (method.read text) ∧
      (method.read text).depth.natAbs ≤ method.depth.natAbs + (text.count '{' + text.count '}') := by
  unfold consume UnclosedMethod.read
  induction text generalizing method with
  | nil => exact ⟨rfl, Nat.le_add_right _ _⟩
  | cons c text ih =>
    rw [List.count_cons, List.count_cons] at h ⊢
    rw [List.foldlM_cons, List.foldl_cons, UnclosedMethod.readChar]
    by_cases hopen : c = '{'
    · subst hopen
      simp only [beq_self_eq_true, if_true, show ('{' == '}') = false from rfl, Bool.false_eq_true, if_false] at h ⊢
      obtain ⟨heq, hle⟩ := ih { method with depth := method.depth + 1, braced := true } (by dsimp only; omega)
      dsimp only at hle
      rw [int32_eq (by omega), ok_bind]
      exact ⟨heq, by omega⟩
    · by_cases hclose : c = '}'
      · subst hclose
        simp only [beq_self_eq_true, if_true, show ('}' == '{') = false from rfl, Bool.false_eq_true, if_false, hopen]
          at h ⊢
        obtain ⟨heq, hle⟩ := ih { method with depth := method.depth - 1 } (by dsimp only; omega)
        dsimp only at hle
        rw [int32_eq (by omega), ok_bind]
        exact ⟨heq, by omega⟩
      · simp only [beq_eq_false_iff_ne.2 hopen, beq_eq_false_iff_ne.2 hclose, Bool.false_eq_true, if_false, hopen, hclose,
          Nat.add_zero] at h ⊢
        exact ih method h

theorem finish_eq (method : UnclosedMethod) (endLine : Nat) : finish method endLine = .ok (method.close endLine) := by
  rw [finish, readParameters_eq]
  rfl

/-- A text of a method is read as the scan reads it, and the depth stays within any bound that it and the braces of the
text are within. -/
theorem feed_eq {n : Nat} (h : method.depth.natAbs + (text.count '{' + text.count '}') ≤ n) (hn : n < int32Bound)
    (methods : List Method) (place : Nat) :
    feed methods method text place = .ok ⟨place, (ScanState.readMethod method place text).1,
        methods ++ (ScanState.readMethod method place text).2.toList⟩ ∧
      Within n (ScanState.readMethod method place text).1 := by
  obtain ⟨hconsume, hdepth⟩ := consume_eq method (Nat.lt_of_le_of_lt h hn)
  rw [feed, hconsume, ok_bind, ScanState.readMethod]
  split
  · rw [finish_eq]
    exact ⟨rfl, trivial⟩
  · rw [Option.toList_none, List.append_nil]
    exact ⟨rfl, Nat.le_trans hdepth h⟩

end Methods

/-! ## Rounds -/

section Rounds

variable {above below : List Text} {line : Text} {rest : List Text} {state : ScanState}

theorem within_readComment (n : Nat) (comment : DocComment) (number : Nat) (line : Text) :
    Within n (ScanState.readComment comment number line) := by
  unfold ScanState.readComment
  dsimp only
  split <;> trivial

theorem within_beginComment (n number : Nat) (line : Text) : Within n (ScanState.beginComment number line) := by
  unfold ScanState.beginComment
  dsimp only
  split <;> trivial

/-- A declaration is read with all its lines. -/
theorem feed_ofLines? {found : Candidate} (hfound : Candidate.ofLines? (line :: rest) = some found)
    (hsize : totalBytes (above ++ line :: rest.take (found.size - 1)) < int32Bound) (pending : Option DocComment)
    (methods : List Method) (number place : Nat) :
    let method : UnclosedMethod := ⟨found.signature, pending, number, 0, false⟩
    feed methods method found.text place = .ok ⟨place, (ScanState.readMethod method place found.text).1,
        methods ++ (ScanState.readMethod method place found.text).2.toList⟩ ∧
      Within (totalBytes (above ++ line :: rest.take (found.size - 1)))
        (ScanState.readMethod method place found.text).1 := by
  refine feed_eq ?_ hsize methods place
  have hbraces := braces_ofLines? hfound
  rw [totalBytes_append]
  dsimp only
  omega

/-- **A round is a step of the scan.** It reads the line at its position and `skip` more, and keeps the depth within the
bytes that are read. -/
theorem round_eq (hsize : totalBytes (above ++ line :: rest) < int32Bound) (hwithin : Within (totalBytes above) state)
    {state' : ScanState} {ended : Option Method} {skip : Nat}
    (hstep : ScanState.step state (above.length + 1) line rest = (state', ended, skip)) (methods : List Method) :
    round (above ++ line :: rest) ⟨above.length, state, methods⟩ =
        .ok ⟨above.length + 1 + skip, state', methods ++ ended.toList⟩ ∧
      Within (totalBytes (above ++ line :: rest.take skip)) state' := by
  have hread : totalBytes (above ++ line :: rest.take skip) < int32Bound := by
    have hrest := totalBytes_append (above ++ line :: rest.take skip) (rest.drop skip)
    rw [List.append_assoc, List.cons_append, List.take_append_drop] at hrest
    omega
  rw [round]
  dsimp only
  rw [item_append, ok_bind]
  cases state with
  | inComment comment =>
    cases hstep
    exact ⟨by rw [Option.toList_none, List.append_nil]; rfl, within_readComment _ _ _ _⟩
  | inMethod method =>
    cases hstep
    have hcount := count_add_count_le (a := '{') (b := '}') (by decide) (trim line)
    have htrim := byteCount_trim_le line
    have hdepth : method.depth.natAbs ≤ totalBytes above := hwithin
    refine feed_eq ?_ hread methods _
    rw [totalBytes_append, totalBytes_cons]
    omega
  | free pending =>
    rw [ScanState.step] at hstep
    dsimp only at hstep ⊢
    by_cases hopens : DocComment.opens (trim line) = true
    · rw [if_pos hopens] at hstep ⊢
      cases hstep
      exact ⟨by rw [Option.toList_none, List.append_nil]; rfl, within_beginComment _ _ _⟩
    · rw [if_neg hopens] at hstep ⊢
      rw [matchAt_eq hsize, ok_bind]
      cases hfound : Candidate.ofLines? (line :: rest) with
      | none =>
        rw [hfound] at hstep
        cases hstep
        exact ⟨by rw [Option.toList_none, List.append_nil]; rfl, trivial⟩
      | some found =>
        rw [hfound] at hstep
        dsimp only at hstep ⊢
        -- The number of the last line of the declaration is the position behind it.
        have hpos := (Candidate.size_ofLines? hfound).1
        have hlast : above.length + 1 + found.size - 1 = above.length + found.size := by omega
        have hplace : above.length + 1 + (found.size - 1) = above.length + found.size := by omega
        rw [hlast] at hstep
        cases hstep
        rw [hplace]
        exact feed_ofLines? hfound hread pending methods _ _

end Rounds

/-! ## The loop -/

section Loop

variable {lines above below : List Text} {line : Text} {rest : List Text} {c : Cursor}

/-- The cursor stands before the lines `below`, where a scan of the lines `above` has come to. -/
structure Follows (lines above below : List Text) (c : Cursor) : Prop where
  lines_eq : lines = above ++ below
  place_eq : c.place = above.length
  reads : ScanState.Reads above below c.state c.methods
  within : Within (totalBytes above) c.state

/-- A cursor that stands before a line is followed by one that stands further down. -/
theorem Follows.round (h : Follows lines above (line :: rest) c) (hsize : totalBytes lines < int32Bound) :
    ∃ c' skip, round lines c = .ok c' ∧ skip ≤ rest.length ∧
      Follows lines (above ++ line :: rest.take skip) (rest.drop skip) c' := by
  obtain ⟨place, state, methods⟩ := c
  obtain ⟨rfl, rfl, hreads, hwithin⟩ := h
  rcases hstep : ScanState.step state (above.length + 1) line rest with ⟨state', ended, skip⟩
  obtain ⟨hround, hwithin'⟩ := round_eq hsize hwithin hstep methods
  have hskip := ScanState.skip_le_of_step hstep
  have htaken : (rest.take skip).length = skip := List.length_take_of_le hskip
  have hline : ScanState.Reads above (line :: (rest.take skip ++ rest.drop skip)) state methods := by
    rwa [List.take_append_drop]
  refine ⟨_, skip, hround, hskip, ?_, ?_, hline.step ?_, hwithin'⟩
  · rw [List.append_assoc, List.cons_append, List.take_append_drop]
  · rw [List.length_append, List.length_cons, htaken, Nat.add_assoc, Nat.add_comm 1]
  · rwa [List.take_append_drop, htaken]

theorem follows_start (lines : List Text) : Follows lines [] lines ⟨0, .free none, []⟩ :=
  ⟨rfl, rfl, .start lines, trivial⟩

/-- Wherever the loop comes to, the scan has come to as well. -/
theorem Reached.follows (h : Reached lines c) (hsize : totalBytes lines < int32Bound) :
    ∃ above below, Follows lines above below c := by
  induction h with
  | start => exact ⟨[], lines, follows_start lines⟩
  | next _ hlt hround ih =>
    obtain ⟨above, below, hfollows⟩ := ih
    cases below with
    | nil =>
      rw [hfollows.lines_eq, hfollows.place_eq, List.append_nil] at hlt
      exact absurd hlt (Nat.lt_irrefl _)
    | cons line rest =>
      obtain ⟨c', skip, hround', -, hfollows'⟩ := hfollows.round hsize
      rw [hround'] at hround
      cases hround
      exact ⟨_, _, hfollows'⟩

/-- The loop never passes the end of the file, and each round of it succeeds and moves on. -/
theorem Reached.advances (h : Reached lines c) (hsize : totalBytes lines < int32Bound) :
    c.place ≤ lines.length ∧
      (c.place < lines.length →
        ∃ c', Positional.round lines c = .ok c' ∧ c.place < c'.place ∧ c'.place ≤ lines.length) := by
  obtain ⟨above, below, hfollows⟩ := h.follows hsize
  have hle : ∀ {above below : List Text} {c : Cursor}, Follows lines above below c → c.place ≤ lines.length :=
    fun {above below c} h => by
      rw [h.lines_eq, h.place_eq, List.length_append]
      exact Nat.le_add_right _ _
  refine ⟨hle hfollows, fun hlt => ?_⟩
  cases below with
  | nil =>
    rw [hfollows.lines_eq, hfollows.place_eq, List.append_nil] at hlt
    exact absurd hlt (Nat.lt_irrefl _)
  | cons line rest =>
    obtain ⟨c', skip, hround, -, hfollows'⟩ := hfollows.round hsize
    refine ⟨c', hround, ?_, hle hfollows'⟩
    rw [hfollows.place_eq, hfollows'.place_eq, List.length_append, List.length_cons]
    omega

/-- At the end of the file the loop has found its methods. -/
theorem Reached.methods_eq (h : Reached lines c) (hsize : totalBytes lines < int32Bound) (hend : c.place = lines.length) :
    c.methods = Method.ofLines lines := by
  obtain ⟨above, below, hfollows⟩ := h.follows hsize
  have hlength := hfollows.place_eq
  rw [hend, hfollows.lines_eq, List.length_append] at hlength
  obtain rfl : below = [] := List.length_eq_zero_iff.1 (by omega)
  have hfound := hfollows.reads.ofLines_eq
  rw [← hfollows.lines_eq, ScanState.scan, List.append_nil] at hfound
  exact hfound.symm

/-- The loop comes to the end of the file. -/
theorem exists_reached_end (hsize : totalBytes lines < int32Bound) : ∃ c, Reached lines c ∧ c.place = lines.length := by
  have hfrom : ∀ n c, Reached lines c → lines.length - c.place = n → ∃ c, Reached lines c ∧ c.place = lines.length := by
    intro n
    induction n using Nat.strong_induction_on with
    | _ n ih =>
      intro c h hn
      obtain ⟨hle, hnext⟩ := h.advances hsize
      rcases Nat.eq_or_lt_of_le hle with hend | hlt
      · exact ⟨c, h, hend⟩
      · obtain ⟨c', hround, hmore, hle'⟩ := hnext hlt
        exact ih (lines.length - c'.place) (by omega) c' (h.next hlt hround) rfl
  exact hfrom _ _ .start rfl

/-- **No reader faults.** On a text and on lines shorter than `2 ^ 31` bytes every access by position succeeds: no
count of open parentheses goes below zero, those of parentheses and braces fit into 32 bits, positions are within their
lists, and texts are cut between characters. The loop over the lines moves on in every round, never passes their end, and
comes there; and what is read is what the readers by structure read. -/
theorem readers_never_fault {text : Text} {lines : List Text} (htext : byteCount text < int32Bound)
    (hlines : totalBytes lines < int32Bound) :
    (readSignature text = .ok (Signature.ofLine? text) ∧
      parenBalance text = .ok (Signature.parenSurplus text) ∧
      opensDeclaration text = .ok (Signature.beginsDeclaration text)) ∧
    (parameterList text = .ok (Parameter.list? text) ∧
      splitTopLevel text = .ok (Parameter.parts text) ∧
      readParameters text = .ok (Parameter.ofSignature text)) ∧
    (∀ path, reviewHeader path text = .ok (HeaderReview.ofContent path text)) ∧
    firstComment lines = .ok (DocComment.first? lines) ∧
    (∀ i < lines.length, matchAt lines i = .ok (Candidate.ofLines? (lines.drop i))) ∧
    (∀ c, Reached lines c → c.place ≤ lines.length ∧
      (c.place < lines.length →
        ∃ c', Positional.round lines c = .ok c' ∧ c.place < c'.place ∧ c'.place ≤ lines.length) ∧
      (c.place = lines.length → c.methods = Method.ofLines lines)) ∧
    ∃ c, Reached lines c ∧ c.place = lines.length := by
  have hparens := Nat.lt_of_le_of_lt (count_add_count_le (a := '(') (b := ')') (by decide) text) htext
  refine ⟨⟨readSignature_eq text, parenBalance_eq hparens, opensDeclaration_eq hparens⟩,
    ⟨parameterList_eq text, splitTopLevel_eq text, readParameters_eq text⟩, fun path => reviewHeader_eq path text,
    firstComment_eq lines, fun i hi => ?_, fun c h => ?_, exists_reached_end hlines⟩
  · have hsplit : lines.take i ++ lines[i] :: lines.drop (i + 1) = lines := by
      rw [← List.drop_eq_getElem_cons hi, List.take_append_drop]
    have hmatch : matchAt (lines.take i ++ lines[i] :: lines.drop (i + 1)) (lines.take i).length = _ :=
      matchAt_eq (by rwa [hsplit])
    rwa [hsplit, List.length_take_of_le (Nat.le_of_lt hi), ← List.drop_eq_getElem_cons hi] at hmatch
  · exact ⟨(h.advances hlines).1, (h.advances hlines).2, h.methods_eq hlines⟩

/-- Closing parentheses and braces that nothing opens, and characters of two bytes, do no harm. -/
theorem readers_never_fault_unbalanced :
    let text := "void *é(ñ x)); \x7d".toList
    let lines := ["void a(int x,".toList, "  int y) \x7b".toList, "\x7d\x7d".toList, ")\x7d".toList]
    byteCount text < int32Bound ∧ totalBytes lines < int32Bound ∧
      (∃ signature, readSignature text = .ok (some signature) ∧ signature.text = "void *é(ñ x)\x7d".toList) ∧
      parenBalance text = .ok (-1) ∧
      ∃ c, Reached lines c ∧ c.place = 4 ∧ c.methods.map (·.declaration.endLine) = [3] := by
  intro text lines
  have htext : byteCount text < int32Bound := by decide +kernel
  have hlines : totalBytes lines < int32Bound := by decide +kernel
  obtain ⟨⟨hsignature, hbalance, -⟩, -, -, -, -, hreached, c, hc, hend⟩ := readers_never_fault htext hlines
  have hdeclared : (Signature.ofLine? text).map (·.text) = some "void *é(ñ x)\x7d".toList := by decide +kernel
  obtain ⟨signature, hsome, heq⟩ := Option.map_eq_some_iff.1 hdeclared
  have hfound : (Method.ofLines lines).map (·.declaration.endLine) = [3] := by decide +kernel
  rw [hsome] at hsignature
  refine ⟨htext, hlines, ⟨signature, hsignature, heq⟩, hbalance, c, hc, hend, ?_⟩
  rw [(hreached c hc).2.2 hend, hfound]

end Loop

end Positional
end DocLint
