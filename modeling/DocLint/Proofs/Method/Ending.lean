import Mathlib.Data.Nat.Find
import Mathlib.Order.Bounds.Defs
import DocLint.Proofs.Method.Steps
import DocLint.Proofs.Method.Wrapping

/-!
# The line where a method ends

The lines of a method, from its declaration on, are complete when all braces that they open are closed or, before any
brace is opened, when the last of them ends with a semicolon or a closing brace (`Method.Completes`). A declaration is
read in one step, whatever lines it takes (`ScanState.Reads.declaration`), and each further line in one step of its own
(`ScanState.Reads.bodyLine`). As long as the lines are not complete the scan stays in the method
(`ScanState.Reads.upTo`). So a method ends with the first line that completes it, and when there is none, neither this
method nor a later one is found (`Method.ends_with_first_complete`).
-/

namespace DocLint

open Text (trim)

/-! ## What a declaration is read off -/

namespace Candidate

variable {line : Text} {rest : List Text} {found : Candidate}

/-- A line that begins a comment declares nothing. -/
theorem opens_eq_false (h : ofLines? (line :: rest) = some found) : DocComment.opens line = false := by
  have hremark : Signature.isRemark (trim (trim line)) = false := by
    simp only [ofLines?] at h
    split at h
    · rename_i signature hsignature
      exact (Signature.of_ofLine?_eq_some hsignature).1
    · split at h
      · rename_i hbegins
        simp only [Signature.beginsDeclaration, Bool.and_eq_true, Bool.not_eq_true'] at hbegins
        exact hbegins.1.1.2
      · cases h
  rw [Text.trim_trim] at hremark
  exact Signature.opens_eq_false hremark

theorem text_extend? : ∀ {more : Nat} {first : Text} {size : Nat} {lines : List Text},
    extend? more first size lines = some found → found.text = joined first (lines.take (found.size - size))
  | 0, _, _, _, h => by cases h
  | _ + 1, _, _, [], h => by cases h
  | more + 1, first, size, line :: lines, h => by
    have hsize := (size_extend? h).1
    obtain ⟨k, hk⟩ := Nat.exists_eq_add_of_lt hsize
    have htake : found.size - size = k + 1 := by omega
    rw [htake, List.take_succ_cons, joined_cons]
    simp only [extend?] at h
    split at h
    · obtain ⟨signature, -, rfl⟩ := Option.map_eq_some_iff.1 h
      obtain rfl : k = 0 := by
        simp only at hk
        omega
      simp [joined]
    · have hrest : found.size - (size + 1) = k := by omega
      rw [← hrest]
      exact text_extend? h

/-- A declaration has the text of the lines that it is read off. -/
theorem text_ofLines? (h : ofLines? (line :: rest) = some found) :
    found.text = joined (trim line) (rest.take (found.size - 1)) := by
  simp only [ofLines?] at h
  split at h
  · cases h
    simp [joined]
  · split at h
    · exact text_extend? h
    · cases h

/-- Joined lines have the characters of the trimmed lines, blanks apart. -/
theorem count_joined_trim {c : Char} (hc : Text.isBlank c = false) (first : Text) (lines : List Text) :
    (joined (trim first) lines).count c = (((first :: lines).map trim).flatten).count c := by
  have hlines : (lines.map trim).flatten.count c = lines.flatten.count c := by
    simp only [List.count_flatten, List.map_map]
    exact congrArg List.sum (List.map_congr_left fun line _ => Text.count_trim hc line)
  rw [count_joined hc, List.map_cons, List.flatten_cons, List.count_append, List.count_append, hlines]

/-- Joined lines end as the last of them does. -/
theorem getLast?_joined {c : Char} (hc : Text.isBlank c = false) (first : Text) (lines : List Text) :
    (joined (trim first) lines).getLast? = some c ↔
      ∃ last ∈ (first :: lines).getLast?, (trim last).getLast? = some c := by
  rcases List.eq_nil_or_concat' lines with rfl | ⟨lines, last, rfl⟩
  · simp [joined]
  · have hspace : ' ' ≠ c := by
      rintro rfl
      cases hc
    have hlast : (joined (trim first) (lines ++ [last])).getLast? = (' ' :: trim last).getLast? := by
      rw [joined, List.flatMap_append, ← List.append_assoc, List.flatMap_singleton,
        List.getLast?_append_of_ne_nil _ (List.cons_ne_nil _ _)]
    rw [hlast, ← List.cons_append, List.getLast?_concat]
    cases hend : (trim last).getLast? with
    | none => simp [List.getLast?_cons, hend, hspace]
    | some d => simp [List.getLast?_cons, hend]

end Candidate

/-! ## Complete methods -/

/-- A method has been read when its last line is the last of `body`: the lines open a brace, and close as many as they
open, or they open none, and the last of them ends with a semicolon or a closing brace. -/
def Method.Completes (body : List Text) : Prop :=
  let text := (body.map trim).flatten
  '{' ∈ text ∧ text.count '{' ≤ text.count '}' ∨
    '{' ∉ text ∧ ∃ last ∈ body.getLast?, (trim last).getLast? = some ';' ∨ (trim last).getLast? = some '}'

instance (body : List Text) : Decidable (Method.Completes body) :=
  inferInstanceAs (Decidable (_ ∧ _ ∨ _ ∧ ∃ last ∈ body.getLast?, _ ∨ _))

/-- The method of a declaration, with the lines `body` read from its first line on. -/
def Candidate.unclosed (candidate : Candidate) (comment : Option DocComment) (startLine : Nat) (body : List Text) :
    UnclosedMethod :=
  (⟨candidate.signature, comment, startLine, 0, false⟩ : UnclosedMethod).read (body.map trim).flatten

namespace Candidate

variable (candidate : Candidate) (comment : Option DocComment) (startLine : Nat)

theorem close_unclosed (body : List Text) (endLine : Nat) : (candidate.unclosed comment startLine body).close endLine =
    ⟨⟨candidate.signature, Parameter.ofSignature candidate.signature.text, startLine, endLine⟩, comment⟩ := by
  rw [unclosed, UnclosedMethod.read_eq]
  rfl

theorem read_unclosed (body : List Text) (line : Text) : (candidate.unclosed comment startLine body).read (trim line) =
    candidate.unclosed comment startLine (body ++ [line]) := by
  simp [unclosed, UnclosedMethod.read]

/-- A method ends with a text that ends as its lines do exactly when the lines complete it. -/
theorem endsAt_unclosed_iff {body : List Text} {text : Text} (hlast : ∀ c, Text.isBlank c = false →
      (text.getLast? = some c ↔ ∃ last ∈ body.getLast?, (trim last).getLast? = some c)) :
    (candidate.unclosed comment startLine body).endsAt text = true ↔ Method.Completes body := by
  simp only [unclosed, UnclosedMethod.read_eq, UnclosedMethod.endsAt, Bool.false_or, Method.Completes]
  by_cases hbraced : '{' ∈ (body.map trim).flatten
  · simp only [List.contains_iff_mem.2 hbraced, if_true, decide_eq_true_eq, hbraced, true_and, not_true, false_and,
      or_false]
    omega
  · have hnone : (body.map trim).flatten.contains '{' = false := by
      rw [← Bool.not_eq_true, List.contains_iff_mem]
      exact hbraced
    simp only [hnone, Bool.false_eq_true, if_false, Bool.or_eq_true, beq_iff_eq, hlast ';' rfl, hlast '}' rfl, hbraced,
      false_and, not_false_eq_true, true_and, false_or, ← exists_or, ← and_or_left]

end Candidate

/-! ## The lines of a method -/

namespace ScanState

variable {above below : List Text} {pending : Option DocComment} {found : List Method} {candidate : Candidate}

/-- The methods that end above some lines end in the lines that are read. -/
theorem Reads.endLine_le {state : ScanState} (h : Reads above below state found) :
    ∀ m ∈ found, m.declaration.endLine ≤ above.length := by
  induction h with
  | start lines => simp
  | @step above taken below line state state' found ended _ hstep ih =>
    intro m hm
    simp only [List.length_append, List.length_cons]
    rcases List.mem_append.1 hm with hm | hm
    · have hle := ih m hm
      omega
    · rw [Option.mem_toList.1 hm] at hstep
      obtain ⟨⟨method, rfl⟩, -⟩ := exists_close_of_step hstep
      simp only [UnclosedMethod.close]
      omega

/-- With the lines `body` of a method read, the method has ended or goes on, as they complete it or not. -/
structure ReadsMethod (above body below : List Text) (pending : Option DocComment) (found : List Method)
    (candidate : Candidate) : Prop where
  ended : Method.Completes body → Reads (above ++ body) below (.free none)
    (found ++ [(candidate.unclosed pending (above.length + 1) body).close (above.length + body.length)])
  goes : ¬ Method.Completes body →
    Reads (above ++ body) below (.inMethod (candidate.unclosed pending (above.length + 1) body)) found

/-- A step that reads a text of a method reads some lines of it. -/
theorem ReadsMethod.of_step {line text : Text} {taken body : List Text} {method : UnclosedMethod} {state : ScanState}
    (h : Reads (above ++ body) (line :: (taken ++ below)) state found)
    (hstep : step state ((above ++ body).length + 1) line (taken ++ below) =
      ((readMethod method (above.length + (body ++ line :: taken).length) text).1,
        (readMethod method (above.length + (body ++ line :: taken).length) text).2, taken.length))
    (hread : method.read text = candidate.unclosed pending (above.length + 1) (body ++ line :: taken))
    (hlast : ∀ c, Text.isBlank c = false → (text.getLast? = some c ↔
      ∃ last ∈ (body ++ line :: taken).getLast?, (trim last).getLast? = some c)) :
    ReadsMethod above (body ++ line :: taken) below pending found candidate := by
  have hends := candidate.endsAt_unclosed_iff pending (above.length + 1) hlast
  have hreads := h.step hstep
  rw [List.append_assoc] at hreads
  simp only [readMethod, hread] at hreads
  refine ⟨fun hcomplete => ?_, fun hopen => ?_⟩
  · rwa [if_pos (hends.2 hcomplete)] at hreads
  · rw [if_neg (mt hends.1 hopen)] at hreads
    rwa [Option.toList_none, List.append_nil] at hreads

/-- The lines that a method is declared in are read in one step. -/
theorem Reads.declaration (h : Reads above below (.free pending) found)
    (hcandidate : Candidate.ofLines? below = some candidate) :
    ReadsMethod above (below.take candidate.size) (below.drop candidate.size) pending found candidate := by
  cases below with
  | nil => cases hcandidate
  | cons line rest =>
    obtain ⟨hpos, hsize⟩ := Candidate.size_ofLines? hcandidate
    obtain ⟨k, hk⟩ := Nat.exists_eq_add_one_of_ne_zero (Nat.ne_of_gt hpos)
    rw [hk, List.length_cons] at hsize
    have htaken : (rest.take k).length = k := List.length_take_of_le (Nat.le_of_succ_le_succ hsize)
    have htext := Candidate.text_ofLines? hcandidate
    rw [hk, Nat.add_sub_cancel] at htext
    have hcount : ∀ c, Text.isBlank c = false →
        candidate.text.count c = ((line :: rest.take k).map trim).flatten.count c := fun c hc => by
      rw [htext, Candidate.count_joined_trim hc]
    rw [hk, List.take_succ_cons, List.drop_succ_cons]
    refine @ReadsMethod.of_step above (rest.drop k) pending found candidate line candidate.text (rest.take k) []
      ⟨candidate.signature, pending, above.length + 1, 0, false⟩ (.free pending) ?_ ?_ ?_ ?_
    · rwa [List.append_nil, List.take_append_drop]
    · have hlast : above.length + 1 + (k + 1) - 1 = above.length + (k + 1) := by omega
      simp only [ScanState.step, DocComment.opens_trim, Candidate.opens_eq_false hcandidate, Bool.false_eq_true, if_false,
        List.append_nil, List.nil_append, List.take_append_drop, hcandidate, hk, hlast, List.length_cons, htaken,
        Nat.add_sub_cancel]
    · exact UnclosedMethod.read_congr (hcount '{' rfl) (hcount '}' rfl) _
    · intro c hc
      rw [htext]
      exact Candidate.getLast?_joined hc line (rest.take k)

/-- A further line of a method is read in one step. -/
theorem Reads.bodyLine {body : List Text} {line : Text}
    (h : Reads (above ++ body) (line :: below) (.inMethod (candidate.unclosed pending (above.length + 1) body)) found) :
    ReadsMethod above (body ++ [line]) below pending found candidate := by
  refine @ReadsMethod.of_step above below pending found candidate line (trim line) [] body
    (candidate.unclosed pending (above.length + 1) body) _ h ?_ (candidate.read_unclosed _ _ _ _) fun c _ => ?_
  · simp only [ScanState.step, List.length_append, List.length_singleton, List.length_nil, Nat.add_assoc]
  · simp

/-- **As long as its lines do not complete it** the scan stays in a method. -/
theorem Reads.upTo (h : Reads above below (.free pending) found)
    (hcandidate : Candidate.ofLines? below = some candidate) {n : Nat} (hn : candidate.size ≤ n)
    (hlength : n ≤ below.length)
    (hopen : ∀ k, candidate.size ≤ k → k < n → ¬ Method.Completes (below.take k)) :
    ReadsMethod above (below.take n) (below.drop n) pending found candidate := by
  induction n, hn using Nat.le_induction with
  | base => exact h.declaration hcandidate
  | succ n hn ih =>
    have hreads := (ih (Nat.le_of_succ_le hlength) fun k hk hlt => hopen k hk (Nat.lt_succ_of_lt hlt)).goes
      (hopen n hn (Nat.lt_succ_self n))
    rw [List.drop_eq_getElem_cons hlength] at hreads
    rw [List.take_succ_eq_append_getElem hlength]
    exact hreads.bodyLine

end ScanState

/-! ## The end of a method -/

/-- The first `n` of the lines have the whole declaration in them and complete its method. -/
def Candidate.Ends (candidate : Candidate) (lines : List Text) (n : Nat) : Prop :=
  candidate.size ≤ n ∧ n ≤ lines.length ∧ Method.Completes (lines.take n)

instance (candidate : Candidate) (lines : List Text) (n : Nat) : Decidable (candidate.Ends lines n) :=
  inferInstanceAs (Decidable (_ ∧ _ ∧ _))

namespace Method

open ScanState (Reads)

/-- **A method ends with the first line that completes it.** Let a scan stand free above the lines `below`, which begin
with a declaration, and let all methods of the lines `above` have ended there. If some first lines of `below` complete
the method, it is found in the fewest that do, with the comment that waited, and the scan goes on free behind them, as in
a file that begins there. If none do, neither this method nor a later one is found. -/
theorem ends_with_first_complete {above below : List Text} {pending : Option DocComment} {found : List Method}
    {candidate : Candidate} (hreads : Reads above below (.free pending) found)
    (hcandidate : Candidate.ofLines? below = some candidate) :
    (∀ m ∈ found, m.declaration.endLine ≤ above.length) ∧
    ((∃ n, candidate.Ends below n) → ∃ n m, IsLeast {n | candidate.Ends below n} n ∧
      m.declaration.startLine = above.length + 1 ∧ m.declaration.endLine = above.length + n ∧
      m.declaration.signature = candidate.signature ∧ m.comment = pending ∧
      Reads (above ++ below.take n) (below.drop n) (.free none) (found ++ [m]) ∧
      ofLines (above ++ below) = found ++ m :: (ofLines (below.drop n)).map (·.shift (above.length + n))) ∧
    ((∀ n, ¬ candidate.Ends below n) → ofLines (above ++ below) = found) := by
  classical
  refine ⟨hreads.endLine_le, fun hsome => ?_, fun hnone => ?_⟩
  · have hends := Nat.find_spec hsome
    have hfirst : ∀ k < Nat.find hsome, ¬ candidate.Ends below k := fun k hk => Nat.find_min hsome hk
    generalize Nat.find hsome = n at hends hfirst
    obtain ⟨hsize, hlength, hcomplete⟩ := hends
    have htake : (below.take n).length = n := List.length_take_of_le hlength
    have hended := (hreads.upTo hcandidate hsize hlength fun k hk hlt h =>
      hfirst k hlt ⟨hk, Nat.le_trans (Nat.le_of_lt hlt) hlength, h⟩).ended hcomplete
    rw [htake, candidate.close_unclosed] at hended
    refine ⟨n, _, ⟨⟨hsize, hlength, hcomplete⟩, fun k hk => ?_⟩, rfl, rfl, rfl, rfl, hended, ?_⟩
    · exact Nat.le_of_not_lt fun hlt => hfirst k hlt hk
    · have hfound := hended.ofLines_eq_of_free
      rwa [List.append_assoc, List.take_append_drop, List.length_append, htake, List.append_assoc,
        List.singleton_append] at hfound
  · have hsize := (Candidate.size_ofLines? hcandidate).2
    have hgoes := (hreads.upTo hcandidate hsize (Nat.le_refl _) fun k hk hlt h =>
      hnone k ⟨hk, Nat.le_of_lt hlt, h⟩).goes fun h => hnone _ ⟨hsize, Nat.le_refl _, h⟩
    have hfound := hgoes.ofLines_eq
    rwa [List.take_length, List.drop_length, List.append_nil, ScanState.scan, List.append_nil] at hfound

/-- A method of two lines with a body on lines of its own ends with the brace that closes the body, not with the one of
an inner block, and the next method is found below it. -/
theorem ends_with_first_complete_body :
    let above := ["/** A. */".toList, "void a();".toList]
    let below := ["int b(int x,".toList, "  int y)".toList, "\x7b".toList, "  if (x) \x7b".toList, "  \x7d".toList,
      "\x7d".toList, "void c();".toList]
    let candidate : Candidate := ⟨⟨"int".toList, "b".toList, .method, "int b(int x, int y)".toList⟩,
      "int b(int x, int y)".toList, 2⟩
    ∃ found, Reads above below (.free none) found ∧ Candidate.ofLines? below = some candidate ∧
      ∃ m, m.declaration.startLine = 3 ∧ m.declaration.endLine = 8 ∧
        ofLines (above ++ below) = found ++ m :: (ofLines ["void c();".toList]).map (·.shift 8) := by
  intro above below candidate
  have hreads : Reads above below (.free none) (ofLines above) := by
    refine @Reads.step ["/** A. */".toList] [] below "void a();".toList
      (.free (some ⟨1, 1, ["/** A. */".toList]⟩)) _ [] (ofLines above).head? ?_ (by decide +kernel)
    exact @Reads.step [] [] _ "/** A. */".toList _ _ [] none (.start _) (by decide +kernel)
  have hcandidate : Candidate.ofLines? below = some candidate := by decide +kernel
  have hends : candidate.Ends below 6 := by decide +kernel
  have hnone : ∀ k < 6, ¬ candidate.Ends below k := by decide +kernel
  obtain ⟨n, m, hleast, hstart, hend, -, -, -, hfound⟩ := (ends_with_first_complete hreads hcandidate).2.1 ⟨6, hends⟩
  obtain rfl : n = 6 := Nat.le_antisymm (hleast.2 hends) (Nat.le_of_not_lt fun hlt => hnone n hlt hleast.1)
  exact ⟨ofLines above, hreads, hcandidate, m, hstart, hend, hfound⟩

end Method
end DocLint
