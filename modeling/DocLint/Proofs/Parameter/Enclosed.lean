import DocLint.Proofs.Parameter.Bracket
import DocLint.Proofs.Text.Nesting

/-!
# The parentheses of a list

A parameter list stands between the first opening parenthesis of a text and the closing one that belongs to it
(`Parameter.Encloses`). The search for the end counts the open parentheses and stops where the first one is closed
(`Parameter.untilClose_eq_some_iff`), so it finds the list wherever there is one (`Parameter.list?_eq_some_iff`), and there
is never more than one (`Parameter.list?_encloses`).
-/

namespace DocLint
namespace Parameter

/-! ## The end of a list -/

section End

theorem untilClose_cons {c : Char} (hopen : c ≠ '(') (hclose : c ≠ ')') (depth : Nat) (s : Text) :
    untilClose depth (c :: s) = (untilClose depth s).map (c :: ·) := by
  simp [untilClose, hopen, hclose]

/-- **The end of a list** is the parenthesis that closes the first one. -/
theorem untilClose_eq_some_iff : ∀ {s inside : Text} {depth : Nat}, untilClose depth s = some inside ↔
    ∃ behind, IsCutAt '(' ')' depth s inside behind
  | [], inside, depth => by simp [untilClose, not_isCutAt_nil]
  | c :: s, inside, depth => by
    -- A character that does not end the list stands before what is cut off behind it.
    have hpass : ∀ {next : Nat}, (untilClose next s).map (c :: ·) = some inside ↔
        ∃ behind front, IsCutAt '(' ')' next s front behind ∧ c :: front = inside := by
      intro next
      rw [Option.map_eq_some_iff, exists_comm]
      simp only [untilClose_eq_some_iff, exists_and_right]
    have hne : '(' ≠ ')' := by decide
    by_cases hopen : c = '('
    · subst hopen
      exact hpass.trans (exists_congr fun _ => (isCutAt_opening_iff hne).symm)
    · by_cases hclose : c = ')'
      · subst hclose
        cases depth with
        | succ depth => exact hpass.trans (exists_congr fun _ => (isCutAt_closing_iff hne).symm)
        | zero =>
          have hend : untilClose 0 (')' :: s) = some [] := rfl
          simp only [hend, isCutAt_zero_closing_iff hne, Option.some.injEq, exists_eq_right]
          exact eq_comm
      · rw [untilClose_cons hopen hclose]
        exact hpass.trans (exists_congr fun _ => (isCutAt_other_iff hopen hclose).symm)

end End

/-! ## The list of a signature -/

section List

variable {signature front list behind : Text}

/-- The text is `front ( list ) behind`: the list begins at the first opening parenthesis, and it has as many closing
parentheses as opening ones, each behind the one that it closes. -/
structure Encloses (signature front list behind : Text) : Prop where
  text_eq : signature = front ++ '(' :: (list ++ ')' :: behind)
  first : '(' ∉ front
  equal : list.count ')' = list.count '('
  never : ∀ part, part <+: list → part.count ')' ≤ part.count '('

theorem isNested_zero_iff {s : Text} : IsNested '(' ')' 0 s ↔
    s.count ')' = s.count '(' ∧ ∀ part, part <+: s → part.count ')' ≤ part.count '(' := by
  constructor
  · rintro ⟨htotal, hnever⟩
    simp only [Nat.zero_add] at htotal hnever
    exact ⟨htotal, hnever⟩
  · rintro ⟨htotal, hnever⟩
    constructor
    · rwa [Nat.zero_add]
    · simpa only [Nat.zero_add] using hnever

theorem list?_of_not_mem {s : Text} (h : '(' ∉ s) : list? s = none := by
  induction s with
  | nil => rfl
  | cons c s ih =>
    obtain ⟨hc, hs⟩ := not_or.1 (mt List.mem_cons.2 h)
    rw [list?, if_neg (Ne.symm hc), ih hs]

theorem Encloses.list?_eq (h : Encloses signature front list behind) : list? signature = some list := by
  rw [h.text_eq, list?_append h.first]
  exact untilClose_eq_some_iff.2 ⟨behind, rfl, isNested_zero_iff.2 ⟨h.equal, h.never⟩⟩

theorem exists_encloses (h : list? signature = some list) : ∃ front behind, Encloses signature front list behind := by
  by_cases hopen : '(' ∈ signature
  · obtain ⟨front, rest, rfl, hfront⟩ := List.eq_append_cons_of_mem hopen
    rw [list?_append hfront] at h
    obtain ⟨behind, rfl, hlist⟩ := untilClose_eq_some_iff.1 h
    obtain ⟨hequal, hnever⟩ := isNested_zero_iff.1 hlist
    exact ⟨front, behind, rfl, hfront, hequal, hnever⟩
  · rw [list?_of_not_mem hopen] at h
    cases h

theorem list?_eq_some_iff : list? signature = some list ↔ ∃ front behind, Encloses signature front list behind :=
  ⟨exists_encloses, fun ⟨_, _, h⟩ => h.list?_eq⟩

/-- A text encloses a list at one place only. -/
theorem Encloses.unique {front' list' behind' : Text} (h : Encloses signature front list behind)
    (h' : Encloses signature front' list' behind') : front = front' ∧ list = list' ∧ behind = behind' := by
  have hlist : list = list' := Option.some.inj (h.list?_eq.symm.trans h'.list?_eq)
  have htext := h.text_eq.symm.trans h'.text_eq
  rw [hlist] at htext
  rcases Text.eq_or_of_append_cons h.first htext with ⟨hfront, hrest⟩ | ⟨u, hfront, -⟩
  · exact ⟨hfront, hlist, (List.cons.inj (List.append_cancel_left hrest)).2⟩
  · exact absurd (by simp [hfront]) h'.first

/-- **The parameter list of a text stands between the first opening parenthesis and the one that closes it.** It is
found exactly where a text in front without an opening parenthesis, a list that closes the parentheses that it opens, and
the rest behind it make up the text; there is at most one such place, and if there is none, no list is found. -/
theorem list?_encloses (signature : Text) :
    (∀ list, list? signature = some list ↔ ∃ front behind, Encloses signature front list behind) ∧
    (∀ front list behind front' list' behind', Encloses signature front list behind →
      Encloses signature front' list' behind' → front = front' ∧ list = list' ∧ behind = behind') ∧
    (list? signature = none ↔ ∀ front list behind, ¬ Encloses signature front list behind) := by
  refine ⟨fun _ => list?_eq_some_iff, fun _ _ _ _ _ _ => Encloses.unique, ?_⟩
  rw [Option.eq_none_iff_forall_ne_some]
  constructor
  · exact fun h front list behind hlist => h list hlist.list?_eq
  · intro h list hlist
    obtain ⟨front, behind, hencloses⟩ := exists_encloses hlist
    exact h front list behind hencloses

/-- A closing parenthesis in front of the list closes nothing. -/
example : list? ")f(g(int), h)) const".toList = some "g(int), h".toList := by decide

end List
end Parameter
end DocLint
