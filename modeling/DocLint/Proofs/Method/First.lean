import DocLint.Proofs.DocComment
import DocLint.Proofs.Method.Cut

/-!
# The first method of a scan

Up to the first line that declares a method a scan only follows comments (`ScanState.passAll`). There the method gets the
comment that the lines above have left (`ScanState.exists_declared`). With another comment in its place, the scan finds
the same methods, the first one with that comment (`ScanState.scan_declared`).
-/

namespace DocLint

/-! ## The scan between methods -/

namespace ScanState

/-- The state after a line with this number that declares nothing. -/
def pass (state : ScanState) (number : Nat) (line : Text) : ScanState :=
  match state with
  | free pending =>
    if DocComment.opens (Text.trim line) then beginComment number (Text.trim line)
    else .free (if keepsComment (Text.trim line) then pending else none)
  | inComment comment => readComment comment number (Text.trim line)
  | inMethod method => (readMethod method number (Text.trim line)).1

/-- The state after lines that declare nothing, the first of which has this number. -/
def passAll (state : ScanState) (number : Nat) : List Text → ScanState
  | [] => state
  | line :: rest => passAll (pass state number line) (number + 1) rest

theorem passAll_concat (state : ScanState) (number : Nat) (lines : List Text) (line : Text) :
    passAll state number (lines ++ [line]) = pass (passAll state number lines) (number + lines.length) line := by
  induction lines generalizing state number with
  | nil => rfl
  | cons head lines ih =>
    simp only [List.cons_append, passAll, List.length_cons]
    rw [ih, Nat.add_right_comm, Nat.add_assoc]

end ScanState

/-! ## The comment of the first method -/

section First

/-- The unclosed method with another comment. -/
def UnclosedMethod.withComment (comment : Option DocComment) (m : UnclosedMethod) : UnclosedMethod :=
  { m with comment := comment }

/-- The method with another comment. -/
def Method.withComment (comment : Option DocComment) (m : Method) : Method := { m with comment := comment }

variable (comment : Option DocComment)

theorem UnclosedMethod.read_withComment (m : UnclosedMethod) (text : Text) :
    (m.withComment comment).read text = (m.read text).withComment comment := by
  induction text generalizing m with
  | nil => rfl
  | cons c text ih =>
    have hchar : (m.withComment comment).readChar c = (m.readChar c).withComment comment := by
      unfold readChar
      split
      · rfl
      · split <;> rfl
    simp only [read, List.foldl_cons, hchar]
    exact ih (m.readChar c)

namespace ScanState

/-- A text ends a method or leaves it open, whatever its comment is. -/
theorem readMethod_withComment (method : UnclosedMethod) (last : Nat) (text : Text) :
    (∃ m, m.declaration.startLine = method.startLine ∧ readMethod method last text = (.free none, some m) ∧
      readMethod (method.withComment comment) last text = (.free none, some (m.withComment comment))) ∨
    ∃ method', method'.startLine = method.startLine ∧ readMethod method last text = (.inMethod method', none) ∧
      readMethod (method.withComment comment) last text = (.inMethod (method'.withComment comment), none) := by
  have hstart := (method.read_places text).1
  have hends : ((method.read text).withComment comment).endsAt text = (method.read text).endsAt text := rfl
  simp only [readMethod, UnclosedMethod.read_withComment, hends]
  split
  · exact .inl ⟨_, hstart, rfl, rfl⟩
  · exact .inr ⟨_, hstart, rfl, rfl⟩

/-- The comment of an unclosed method goes to the method that ends next. -/
theorem scan_withComment : ∀ (skip : Nat) (method : UnclosedMethod) (number : Nat) (lines : List Text),
    scan skip (.inMethod (method.withComment comment)) number lines =
        (scan skip (.inMethod method) number lines).modifyHead (·.withComment comment) ∧
      ∀ m ∈ (scan skip (.inMethod method) number lines).head?, m.declaration.startLine = method.startLine
  | 0, _, _, [] | _ + 1, _, _, [] => ⟨rfl, fun m hm => (by cases hm)⟩
  | skip + 1, method, number, _ :: rest => scan_withComment skip method (number + 1) rest
  | 0, method, number, line :: rest => by
    simp only [scan, step]
    rcases readMethod_withComment comment method number (Text.trim line) with
      ⟨m, hstart, hm, hm'⟩ | ⟨method', hstart, hm, hm'⟩
    · rw [hm, hm']
      exact ⟨rfl, fun a ha => by cases ha; exact hstart⟩
    · rw [hm, hm', ← hstart]
      exact scan_withComment 0 method' (number + 1) rest

variable {line : Text} {below : List Text} {found : Candidate}

/-- A declaration gets the comment that waits for it. -/
theorem scan_declared (hopens : DocComment.opens line = false)
    (hfound : Candidate.ofLines? (line :: below) = some found) (number : Nat) :
    scan 0 (.free comment) number (line :: below) =
        (scan 0 (.free none) number (line :: below)).modifyHead (·.withComment comment) ∧
      ∀ m ∈ (scan 0 (.free none) number (line :: below)).head?, m.declaration.startLine = number := by
  have hmethod : (⟨found.signature, comment, number, 0, false⟩ : UnclosedMethod) =
      UnclosedMethod.withComment comment ⟨found.signature, none, number, 0, false⟩ := rfl
  simp only [scan, step, DocComment.opens_trim, hopens, Bool.false_eq_true, if_false, hfound, hmethod]
  rcases readMethod_withComment comment ⟨found.signature, none, number, 0, false⟩ (number + found.size - 1)
    found.text with ⟨m, hstart, hm, hm'⟩ | ⟨method', hstart, hm, hm'⟩
  · rw [hm, hm']
    exact ⟨rfl, fun a ha => by cases ha; exact hstart⟩
  · rw [hm, hm']
    obtain ⟨hscan, hhead⟩ := scan_withComment comment (found.size - 1) method' (number + 1) below
    exact ⟨hscan, fun a ha => (hhead a ha).trans hstart⟩

/-- Behind the lines `above`, of which the first has the number `number` and is read in the state, `line` declares the
first method that is found, with the lines `below` following it. -/
structure Declares (state : ScanState) (number : Nat) (above : List Text) (line : Text) (below : List Text) (m : Method)
    (rest : List Method) : Prop where
  start : m.declaration.startLine = number + above.length
  passed : state.passAll number above = .free m.comment
  opens : DocComment.opens line = false
  found : ∃ found, Candidate.ofLines? (line :: below) = some found
  scan : scan 0 (.free m.comment) (number + above.length) (line :: below) = m :: rest

variable {m : Method} {rest : List Method}

theorem Declares.cons {state : ScanState} {number : Nat} {head : Text} {above : List Text}
    (h : Declares (state.pass number head) (number + 1) above line below m rest) :
    Declares state number (head :: above) line below m rest := by
  have hlength : number + (head :: above).length = number + 1 + above.length := by
    rw [List.length_cons]
    omega
  exact ⟨hlength ▸ h.start, h.passed, h.opens, h.found, hlength ▸ h.scan⟩

/-- **The first method** is declared in the first line that declares one, and gets what the lines above it have left. -/
theorem exists_declared : ∀ {lines : List Text} {state : ScanState} {number : Nat},
    (∀ method, state ≠ .inMethod method) → ScanState.scan 0 state number lines = m :: rest →
      ∃ above line below, lines = above ++ line :: below ∧ Declares state number above line below m rest
  | [], _, _, _, h => by cases h
  | head :: tail, state, number, hstate, h => by
    -- A line that declares nothing is one more line above the method.
    have hskip : step state number head tail = (state.pass number head, none, 0) →
        (∀ method, state.pass number head ≠ .inMethod method) →
        ∃ above line below, head :: tail = above ++ line :: below ∧ Declares state number above line below m rest := by
      intro hstep hpass
      simp only [ScanState.scan, hstep, Option.toList_none, List.nil_append] at h
      obtain ⟨above, line, below, rfl, hdeclares⟩ := exists_declared hpass h
      exact ⟨head :: above, line, below, rfl, hdeclares.cons⟩
    cases state with
    | inMethod method => exact (hstate method rfl).elim
    | inComment c =>
      refine hskip rfl fun method => ?_
      simp only [pass, readComment]
      split <;> simp
    | free pending =>
      cases hopens : DocComment.opens head with
      | true =>
        refine hskip ?_ fun method => ?_
        · simp [step, pass, DocComment.opens_trim, hopens]
        · simp only [pass, DocComment.opens_trim, hopens, if_true, beginComment]
          split <;> simp
      | false =>
        cases hfound : Candidate.ofLines? (head :: tail) with
        | none =>
          refine hskip ?_ fun method => ?_
          · simp [step, pass, DocComment.opens_trim, hopens, hfound]
          · simp [pass, DocComment.opens_trim, hopens]
        | some found =>
          obtain ⟨hhead, hstart⟩ := scan_declared pending hopens hfound number
          rw [h] at hhead
          cases hscan : ScanState.scan 0 (.free none) number (head :: tail) with
          | nil =>
            rw [hscan] at hhead
            cases hhead
          | cons m' rest' =>
            rw [hscan] at hhead hstart
            cases hhead
            exact ⟨[], head, tail, rfl, hstart m' rfl, rfl, hopens, ⟨found, hfound⟩, h⟩

end ScanState
end First

end DocLint
