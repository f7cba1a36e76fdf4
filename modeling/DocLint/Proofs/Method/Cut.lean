import DocLint.Proofs.Method.Order

/-!
# Cutting a file at the end of a method

* Line numbers are only reported: the scan of lines numbered from further on finds the same methods, shifted
  (`ScanState.scan_shift`).
* A declaration is read off the lines that it takes, whatever follows them (`Candidate.ofLines?_eq_some_iff_append`), so
  a step does not see lines that it does not read (`ScanState.step_append`).
* Hence a scan can be cut after the last line of a method (`ScanState.scan_cut`): the lines up to it and those after it
  give their methods by themselves (`Method.ofLines_cut`).
-/

namespace DocLint

/-! ## Line numbers that are raised -/

section Shift

/-- The comment some lines further down. -/
def DocComment.shift (lines : Nat) (comment : DocComment) : DocComment :=
  { comment with startLine := comment.startLine + lines, endLine := comment.endLine + lines }

/-- The declaration some lines further down. -/
def Declaration.shift (lines : Nat) (d : Declaration) : Declaration :=
  { d with startLine := d.startLine + lines, endLine := d.endLine + lines }

/-- The method with its comment some lines further down. -/
def Method.shift (lines : Nat) (m : Method) : Method :=
  ⟨m.declaration.shift lines, m.comment.map (·.shift lines)⟩

/-- The unclosed method with its comment some lines further down. -/
def UnclosedMethod.shift (lines : Nat) (m : UnclosedMethod) : UnclosedMethod :=
  { m with comment := m.comment.map (·.shift lines), startLine := m.startLine + lines }

/-- What the scan is in the middle of, some lines further down. -/
def ScanState.shift (lines : Nat) : ScanState → ScanState
  | free pending => .free (pending.map (·.shift lines))
  | inComment comment => .inComment (comment.shift lines)
  | inMethod method => .inMethod (method.shift lines)

variable (k : Nat)

theorem UnclosedMethod.readChar_shift (m : UnclosedMethod) (c : Char) :
    (m.shift k).readChar c = (m.readChar c).shift k := by
  unfold readChar
  split
  · rfl
  · split <;> rfl

theorem UnclosedMethod.read_shift (m : UnclosedMethod) (text : Text) :
    (m.shift k).read text = (m.read text).shift k := by
  induction text generalizing m with
  | nil => rfl
  | cons c text ih =>
    simp only [read, List.foldl_cons, readChar_shift]
    exact ih (m.readChar c)

namespace ScanState

theorem readMethod_shift (method : UnclosedMethod) (number : Nat) (text : Text) :
    readMethod (method.shift k) (number + k) text =
      ((readMethod method number text).1.shift k, (readMethod method number text).2.map (·.shift k)) := by
  have hends : ((method.read text).shift k).endsAt text = (method.read text).endsAt text := rfl
  simp only [readMethod, UnclosedMethod.read_shift, hends]
  split <;> rfl

theorem readComment_shift (comment : DocComment) (number : Nat) (line : Text) :
    readComment (comment.shift k) (number + k) line = (readComment comment number line).shift k := by
  unfold readComment
  split <;> rfl

theorem beginComment_shift (number : Nat) (line : Text) :
    beginComment (number + k) line = (beginComment number line).shift k := by
  unfold beginComment
  split <;> rfl

/-- A step does the same whatever number its line has. -/
theorem step_shift (state : ScanState) (number : Nat) (line : Text) (rest : List Text) :
    step (state.shift k) (number + k) line rest =
      ((step state number line rest).1.shift k, (step state number line rest).2.1.map (·.shift k),
        (step state number line rest).2.2) := by
  cases state with
  | inComment comment => simp only [shift, step, readComment_shift, Option.map_none]
  | inMethod method => simp only [shift, step, readMethod_shift]
  | free pending =>
    simp only [shift, step]
    split
    · rw [beginComment_shift]
      rfl
    · split
      · rename_i found hfound
        have hpos := (Candidate.size_ofLines? hfound).1
        have hlast : number + k + found.size - 1 = number + found.size - 1 + k := by omega
        have hmethod : (⟨found.signature, pending.map (·.shift k), number + k, 0, false⟩ : UnclosedMethod) =
            UnclosedMethod.shift k ⟨found.signature, pending, number, 0, false⟩ := rfl
        rw [hlast, hmethod, readMethod_shift]
        rfl
      · split <;> rfl

/-- The scan of lines further down finds the same methods further down. -/
theorem scan_shift : ∀ (skip : Nat) (state : ScanState) (number : Nat) (lines : List Text),
    scan skip (state.shift k) (number + k) lines = (scan skip state number lines).map (·.shift k)
  | 0, _, _, [] => rfl
  | _ + 1, _, _, [] => rfl
  | skip + 1, state, number, _ :: rest => by
    simp only [scan]
    rw [Nat.add_right_comm]
    exact scan_shift skip state (number + 1) rest
  | 0, state, number, line :: rest => by
    simp only [scan, step_shift]
    rw [Nat.add_right_comm, scan_shift _ _ (number + 1) rest, List.map_append, Option.toList_map]

end ScanState
end Shift

/-! ## Lines that are not read -/

section Locality

namespace Candidate

variable {above below : List Text} {found : Candidate}

/-- Whether an open declaration takes the lines above does not depend on those below. -/
theorem extend?_eq_some_iff_append : ∀ {more : Nat} {joined : Text} {size : Nat} {above : List Text},
    extend? more joined size above = some found ↔
      extend? more joined size (above ++ below) = some found ∧ found.size ≤ size + above.length
  | 0, _, _, _ => by simp [extend?]
  | more + 1, joined, size, [] => by
    simp only [extend?, reduceCtorEq, List.nil_append, List.length_nil, Nat.add_zero, false_iff, not_and, Nat.not_le]
    exact fun h => (size_extend? h).1
  | more + 1, joined, size, line :: above => by
    have hlength : size + (line :: above).length = size + 1 + above.length := by
      rw [List.length_cons]
      omega
    simp only [extend?, List.cons_append, hlength]
    split
    · rw [Option.map_eq_some_iff]
      refine (and_iff_left_of_imp ?_).symm
      rintro ⟨signature, -, rfl⟩
      exact Nat.le_add_right _ _
    · exact extend?_eq_some_iff_append

/-- Whether the lines above begin with a declaration that ends in them does not depend on those below. -/
theorem ofLines?_eq_some_iff_append (line : Text) :
    ofLines? (line :: above) = some found ↔
      ofLines? (line :: (above ++ below)) = some found ∧ found.size ≤ above.length + 1 := by
  simp only [ofLines?]
  split
  · refine (and_iff_left_of_imp fun h => ?_).symm
    cases h
    exact Nat.le_add_left 1 _
  · split
    · rw [Nat.add_comm above.length 1]
      exact extend?_eq_some_iff_append
    · simp

end Candidate

namespace ScanState

variable {state state' : ScanState} {number skip : Nat} {line : Text} {above below rest : List Text}
  {ended : Option Method}

/-- A step that reads no line below the ones above is a step of those alone. -/
theorem step_append (h : step state number line (above ++ below) = (state', ended, skip))
    (hskip : skip ≤ above.length) : step state number line above = (state', ended, skip) := by
  cases state with
  | inComment comment => exact h
  | inMethod method => exact h
  | free pending =>
    simp only [step] at h ⊢
    split at h
    · rename_i hopens
      rw [if_pos hopens]
      exact h
    · rename_i hopens
      rw [if_neg hopens]
      cases hfound : Candidate.ofLines? (line :: (above ++ below)) with
      | some found =>
        simp only [hfound] at h
        have hsize : found.size ≤ above.length + 1 := by
          cases h
          omega
        simp only [(Candidate.ofLines?_eq_some_iff_append line).2 ⟨hfound, hsize⟩]
        exact h
      | none =>
        simp only [hfound] at h
        have hnone : Candidate.ofLines? (line :: above) = none := by
          rw [Option.eq_none_iff_forall_ne_some]
          intro found hsome
          rw [((Candidate.ofLines?_eq_some_iff_append line).1 hsome).1] at hfound
          cases hfound
        simp only [hnone]
        exact h

/-- A method that ends in a step ends with the last line that the step reads, and leaves the scan free. -/
theorem exists_close_of_step {m : Method} (h : step state number line rest = (state', some m, skip)) :
    (∃ method, m = UnclosedMethod.close method (number + skip)) ∧ state' = .free none := by
  have hread : ∀ {method : UnclosedMethod} {last : Nat} {text : Text},
      readMethod method last text = (state', some m) →
        (∃ method, m = UnclosedMethod.close method last) ∧ state' = .free none := by
    intro method last text h
    simp only [readMethod] at h
    split at h
    · cases h
      exact ⟨⟨_, rfl⟩, rfl⟩
    · cases h
  cases state with
  | inComment comment => cases h
  | inMethod method =>
    simp only [step, Prod.mk.injEq] at h
    obtain ⟨hstate, hended, rfl⟩ := h
    exact hread (Prod.ext hstate hended)
  | free pending =>
    simp only [step] at h
    split at h
    · cases h
    · split at h
      · rename_i found hfound
        have hpos := (Candidate.size_ofLines? hfound).1
        simp only [Prod.mk.injEq] at h
        obtain ⟨hstate, hended, rfl⟩ := h
        have hlast : number + found.size - 1 = number + (found.size - 1) := by omega
        rw [hlast] at hstate hended
        exact hread (Prod.ext hstate hended)
      · cases h

/-- A method that is found has been unclosed, and ends in one of the lines that are still to be read. -/
theorem exists_close_of_mem_scan {m : Method} : ∀ {skip : Nat} {state : ScanState} {number : Nat} {lines : List Text},
    m ∈ scan skip state number lines → ∃ method last, number + skip ≤ last ∧ m = UnclosedMethod.close method last
  | 0, _, _, [], h | _ + 1, _, _, [], h => by cases h
  | skip + 1, state, number, _ :: rest, h => by
    have hrest : m ∈ scan skip state (number + 1) rest := h
    obtain ⟨method, last, hle, rfl⟩ := exists_close_of_mem_scan hrest
    exact ⟨method, last, by omega, rfl⟩
  | 0, state, number, line :: rest, h => by
    rcases hstep : step state number line rest with ⟨state', ended, skip⟩
    simp only [scan, hstep] at h
    rcases List.mem_append.1 h with h | h
    · rw [Option.mem_toList.1 h] at hstep
      obtain ⟨⟨method, rfl⟩, -⟩ := exists_close_of_step hstep
      exact ⟨method, number + skip, Nat.le_add_right _ _, rfl⟩
    · obtain ⟨method, last, hle, rfl⟩ := exists_close_of_mem_scan h
      exact ⟨method, last, by omega, rfl⟩

theorem le_endLine_of_mem_scan {m : Method} {lines : List Text} (h : m ∈ scan skip state number lines) :
    number + skip ≤ m.declaration.endLine := by
  obtain ⟨method, last, hle, rfl⟩ := exists_close_of_mem_scan h
  exact hle

/-- Lines that are read already are skipped. -/
theorem scan_length_append (state : ScanState) : ∀ (number : Nat) (above below : List Text),
    scan above.length state number (above ++ below) = scan 0 state (number + above.length) below
  | _, [], _ => rfl
  | number, _ :: above, below => by
    simp only [List.length_cons, List.cons_append, scan]
    rw [scan_length_append state (number + 1) above below, Nat.add_right_comm, Nat.add_assoc]

/-- **A scan can be cut at the end of a method.** What follows is scanned as if nothing stood above it. -/
theorem scan_cut {m : Method} : ∀ {above : List Text} {skip : Nat} {state : ScanState} {number : Nat},
    m ∈ scan skip state number (above ++ below) → m.declaration.endLine + 1 = number + above.length →
      scan skip state number (above ++ below) =
        scan skip state number above ++ scan 0 (.free none) (number + above.length) below
  | [], _, _, number, hm, hend => by
    have hle := le_endLine_of_mem_scan hm
    rw [List.length_nil] at hend
    omega
  | line :: above, skip + 1, state, number, hm, hend => by
    have habove : m ∈ scan skip state (number + 1) (above ++ below) := hm
    have hnext : number + (line :: above).length = number + 1 + above.length := by
      rw [List.length_cons]
      omega
    rw [hnext] at hend ⊢
    exact scan_cut habove hend
  | line :: above, 0, state, number, hm, hend => by
    rcases hstep : step state number line (above ++ below) with ⟨state', ended, skip⟩
    have hnext : number + (line :: above).length = number + 1 + above.length := by
      rw [List.length_cons]
      omega
    rw [hnext] at hend ⊢
    simp only [List.cons_append, scan, hstep] at hm ⊢
    -- A step that reads on below the cut leaves no method that could end at it.
    have hskip : skip ≤ above.length := by
      rcases List.mem_append.1 hm with hm | hm
      · rw [Option.mem_toList.1 hm] at hstep
        obtain ⟨⟨method, rfl⟩, -⟩ := exists_close_of_step hstep
        simp only [UnclosedMethod.close] at hend
        omega
      · have hle := le_endLine_of_mem_scan hm
        omega
    simp only [step_append hstep hskip, List.append_assoc]
    refine congrArg _ ?_
    rcases List.mem_append.1 hm with hm | hm
    · rw [Option.mem_toList.1 hm] at hstep
      obtain ⟨⟨method, rfl⟩, rfl⟩ := exists_close_of_step hstep
      have hall : skip = above.length := by
        simp only [UnclosedMethod.close] at hend
        omega
      have habove := scan_length_append (.free none) (number + 1) above []
      rw [List.append_nil] at habove
      rw [hall, scan_length_append, habove]
      rfl
    · exact scan_cut hm hend

end ScanState
end Locality

/-! ## The methods on both sides of a cut -/

namespace Method

/-- The parameters of a method are those of its signature. -/
theorem params_eq {lines : List Text} {m : Method} (h : m ∈ ofLines lines) :
    m.declaration.params = Parameter.ofSignature m.declaration.signature.text := by
  obtain ⟨method, last, -, rfl⟩ := ScanState.exists_close_of_mem_scan h
  rfl

/-- Two cuts of one list are the same when each has the methods that end up to a line on its left and those that end
later on its right. -/
theorem append_inj_of_endLine {k : Nat} {before after before' after' : List Method}
    (h : before ++ after = before' ++ after') (hbefore : ∀ m ∈ before, m.declaration.endLine ≤ k)
    (hafter : ∀ m ∈ after, k < m.declaration.endLine) (hbefore' : ∀ m ∈ before', m.declaration.endLine ≤ k)
    (hafter' : ∀ m ∈ after', k < m.declaration.endLine) : before = before' ∧ after = after' := by
  have hfilter : ∀ {left right : List Method}, (∀ m ∈ left, m.declaration.endLine ≤ k) →
      (∀ m ∈ right, k < m.declaration.endLine) →
      (left ++ right).filter (fun m => decide (m.declaration.endLine ≤ k)) = left := by
    intro left right hleft hright
    rw [List.filter_append, List.filter_eq_self.2 fun m hm => decide_eq_true (hleft m hm),
      List.filter_eq_nil_iff.2 fun m hm => by simpa using hright m hm, List.append_nil]
  have hleft : before = before' := by
    rw [← hfilter hbefore hafter, h, hfilter hbefore' hafter']
  subst hleft
  exact ⟨rfl, List.append_cancel_left h⟩

theorem ofLines_eq_append {lines : List Text} {m : Method} (hm : m ∈ ofLines lines) :
    ofLines lines = ofLines (lines.take m.declaration.endLine) ++
      (ofLines (lines.drop m.declaration.endLine)).map (·.shift m.declaration.endLine) := by
  have hend := ((inOrder_ofLines lines).mem hm).2
  have htake : (lines.take m.declaration.endLine).length = m.declaration.endLine := by
    rw [List.length_take]
    omega
  have hcut := @ScanState.scan_cut (lines.drop m.declaration.endLine) m (lines.take m.declaration.endLine) 0
    (.free none) 1
  rw [List.take_append_drop, htake, Nat.add_comm 1] at hcut
  calc ofLines lines
      = ofLines (lines.take m.declaration.endLine) ++
          ScanState.scan 0 (.free none) (m.declaration.endLine + 1) (lines.drop m.declaration.endLine) := hcut hm rfl
    _ = _ := by
        rw [Nat.add_comm]
        exact congrArg _ (ScanState.scan_shift m.declaration.endLine 0 (.free none) 1 _)

/-- The methods before a method end above it, and those after it end below it. -/
theorem endLine_of_ofLines_eq {lines : List Text} {before after : List Method} {m : Method}
    (h : ofLines lines = before ++ m :: after) :
    (∀ a ∈ before, a.declaration.endLine < m.declaration.endLine) ∧
      ∀ b ∈ after, m.declaration.endLine < b.declaration.endLine := by
  have hpairwise := (inOrder_ofLines lines).pairwise
  rw [h, List.pairwise_append, List.pairwise_cons] at hpairwise
  obtain ⟨-, ⟨hafter, -⟩, hbefore⟩ := hpairwise
  refine ⟨fun a ha => ?_, fun b hb => ?_⟩
  · have hbelow := hbefore a ha m List.mem_cons_self
    exact Nat.lt_of_lt_of_le hbelow.declaration hbelow.ordered
  · exact Nat.lt_of_lt_of_le (hafter b hb).declaration (hafter b hb).ordered

/-- Cut at the end of a method, the lines up to there have the methods up to it, and the lines after it the later ones. -/
theorem cut_of_ofLines_eq {lines : List Text} {before after : List Method} {m : Method}
    (h : ofLines lines = before ++ m :: after) :
    ofLines (lines.take m.declaration.endLine) = before ++ [m] ∧
      (ofLines (lines.drop m.declaration.endLine)).map (·.shift m.declaration.endLine) = after := by
  have hm : m ∈ ofLines lines := h ▸ List.mem_append_right _ List.mem_cons_self
  obtain ⟨hbefore, hafter⟩ := endLine_of_ofLines_eq h
  have hends := inOrder_ofLines (lines.take m.declaration.endLine)
  have hstarts := inOrder_ofLines (lines.drop m.declaration.endLine)
  have hsplit : ofLines (lines.take m.declaration.endLine) ++
      (ofLines (lines.drop m.declaration.endLine)).map (·.shift m.declaration.endLine) = (before ++ [m]) ++ after := by
    rw [← ofLines_eq_append hm, h, List.append_assoc, List.singleton_append]
  refine append_inj_of_endLine hsplit ?_ ?_ ?_ hafter
  · exact fun a ha => Nat.le_trans (hends.mem ha).2 (List.length_take_le _ _)
  · rw [List.forall_mem_map]
    intro b hb
    have hbelow := (hstarts.mem hb).1
    have hstart := hbelow.declaration
    have hordered := hbelow.ordered
    simp only [shift, Declaration.shift]
    omega
  · intro a ha
    rcases List.mem_append.1 ha with ha | ha
    · exact Nat.le_of_lt (hbefore a ha)
    · exact Nat.le_of_eq (congrArg (·.declaration.endLine) (List.mem_singleton.1 ha))

/-- **A file can be cut at the end of any method.** Its methods are those of the lines up to there and those of the lines
after it, further down. The method and those before it are the ones that the lines up to there have by themselves, and
the later ones are those that the lines after it have by themselves. -/
theorem ofLines_cut {lines : List Text} {m : Method} (hm : m ∈ ofLines lines) :
    ofLines lines = ofLines (lines.take m.declaration.endLine) ++
      (ofLines (lines.drop m.declaration.endLine)).map (·.shift m.declaration.endLine) ∧
    ∀ before after, ofLines lines = before ++ m :: after →
      ofLines (lines.take m.declaration.endLine) = before ++ [m] ∧
      (ofLines (lines.drop m.declaration.endLine)).map (·.shift m.declaration.endLine) = after :=
  ⟨ofLines_eq_append hm, fun _ _ h => cut_of_ofLines_eq h⟩

/-- A cut after a body that a declaration of two lines begins, above a method with a comment. -/
theorem ofLines_cut_two :
    let lines := ["void a(int x,".toList, "  int y) \x7b".toList, "\x7d".toList, "/** C. */".toList, "int c();".toList]
    ∃ m ∈ ofLines lines, m.declaration.endLine = 3 ∧
      ofLines lines = ofLines (lines.take 3) ++ (ofLines (lines.drop 3)).map (·.shift 3) := by
  intro lines
  have hm : (ofLines lines).head (by decide) ∈ ofLines lines := List.head_mem _
  exact ⟨_, hm, by decide, (ofLines_cut hm).1⟩

end Method
end DocLint
