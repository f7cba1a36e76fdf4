import DocLint.Proofs.Method.Cut

/-!
# A scan step by step

A step of the scan reads a line, and with it the further lines of a declaration. `ScanState.Reads` says how far such
steps have come: which lines are read, what the scan is in the middle of, and which methods have ended. What is found in
the lines that are left is found behind these methods (`ScanState.Reads.ofLines_eq`), and every scan gets to its last
line (`ScanState.exists_reads`), so that what each step keeps holds of all methods of a file.
-/

namespace DocLint
namespace ScanState

/-- The scan has read the lines `above`, in which the methods `found` end, and is in the state before the lines
`below`. -/
inductive Reads : (above below : List Text) → ScanState → (found : List Method) → Prop
  | start (lines : List Text) : Reads [] lines (.free none) []
  | step {above taken below : List Text} {line : Text} {state state' : ScanState} {found : List Method}
      {ended : Option Method} : Reads above (line :: (taken ++ below)) state found →
      step state (above.length + 1) line (taken ++ below) = (state', ended, taken.length) →
      Reads (above ++ line :: taken) below state' (found ++ ended.toList)

variable {above below : List Text} {state : ScanState} {found : List Method}

/-- The methods of a file are those that have ended and those that the rest of the scan finds. -/
theorem Reads.ofLines_eq (h : Reads above below state found) :
    Method.ofLines (above ++ below) = found ++ scan 0 state (above.length + 1) below := by
  induction h with
  | start lines => rfl
  | @step above taken below line state state' found ended _ hstep ih =>
    have hlength : (above ++ line :: taken).length + 1 = above.length + 1 + 1 + taken.length := by
      simp only [List.length_append, List.length_cons]
      omega
    rw [List.append_assoc, List.cons_append, ih, hlength]
    simp only [scan, hstep]
    rw [scan_length_append, List.append_assoc]

/-- Where no comment waits, the lines that are left have their methods as a file of their own has them. -/
theorem Reads.ofLines_eq_of_free (h : Reads above below (.free none) found) :
    Method.ofLines (above ++ below) = found ++ (Method.ofLines below).map (·.shift above.length) := by
  have hshift := scan_shift above.length 0 (.free none) 1 below
  rw [h.ofLines_eq, Nat.add_comm]
  exact congrArg _ hshift

/-- A step reads lines that are there. -/
theorem skip_le_of_step {number skip : Nat} {line : Text} {rest : List Text} {state' : ScanState}
    {ended : Option Method} (h : step state number line rest = (state', ended, skip)) : skip ≤ rest.length := by
  cases state with
  | inComment comment =>
    cases h
    exact Nat.zero_le _
  | inMethod method =>
    cases h
    exact Nat.zero_le _
  | free pending =>
    simp only [step] at h
    split at h
    · cases h
      exact Nat.zero_le _
    · split at h
      · rename_i candidate hcandidate
        have hsize := (Candidate.size_ofLines? hcandidate).2
        cases h
        rw [List.length_cons] at hsize
        omega
      · cases h
        exact Nat.zero_le _

/-- A scan goes on to the last line. -/
theorem Reads.exists_end : ∀ {above below : List Text} {state : ScanState} {found : List Method},
    Reads above below state found → ∃ state' found', Reads (above ++ below) [] state' found'
  | above, [], state, found, h => ⟨state, found, by rwa [List.append_nil]⟩
  | above, line :: rest, state, found, h => by
    rcases hstep : ScanState.step state (above.length + 1) line rest with ⟨state', ended, skip⟩
    have hskip := skip_le_of_step hstep
    have htaken : (rest.take skip).length = skip := List.length_take_of_le hskip
    have hreads : Reads (above ++ line :: rest.take skip) (rest.drop skip) state' (found ++ ended.toList) := by
      have hline : Reads above (line :: (rest.take skip ++ rest.drop skip)) state found := by rwa [List.take_append_drop]
      refine hline.step ?_
      rwa [List.take_append_drop, htaken]
    have hlines : (above ++ line :: rest.take skip) ++ rest.drop skip = above ++ line :: rest := by
      rw [List.append_assoc, List.cons_append, List.take_append_drop]
    rw [← hlines]
    exact hreads.exists_end
termination_by _ below => below.length
decreasing_by
  rw [List.length_drop, List.length_cons]
  omega

/-- **Every scan gets to its last line**, and then all methods of the file have ended that are found in it. -/
theorem exists_reads (lines : List Text) : ∃ state, Reads lines [] state (Method.ofLines lines) := by
  obtain ⟨state, found, h⟩ := (Reads.start lines).exists_end
  have hfound := h.ofLines_eq
  rw [List.nil_append, List.append_nil] at hfound
  rw [List.nil_append] at h
  rw [hfound, scan, List.append_nil]
  exact ⟨state, h⟩

end ScanState
end DocLint
