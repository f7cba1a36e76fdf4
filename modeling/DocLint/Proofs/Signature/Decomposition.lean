import DocLint.Proofs.Signature.NameToken
import DocLint.Proofs.Text.Nesting
import DocLint.Signature

/-!
# The parts of a declaration

The tokens of a declaration are `lead name ( list ) after`, where no token of `lead` belongs to an expression, no
parenthesis opens before the list but at the very beginning, and the list closes what it opens
(`Signature.Decomposes`). The reader cuts tokens so and finds every way to do it (`Signature.decomposes_iff`), of which
there is at most one (`Signature.Decomposes.unique`).
-/

namespace DocLint

/-! ## Closing parentheses -/

namespace Token

/-- The tokens close `depth` parentheses more than they open, and no beginning of them closes any further one. -/
structure Closes (depth : Nat) (tokens : List Token) : Prop where
  total : tokens.count .closeParen = depth + tokens.count .openParen
  never : ∀ front, front <+: tokens → front.count .closeParen ≤ depth + front.count .openParen

/-- The tokens close the parentheses that they open, each after it is opened. -/
def IsBalanced (tokens : List Token) : Prop := Closes 0 tokens

variable {depth : Nat} {tokens : List Token}

theorem closes_iff : Closes depth tokens ↔ IsNested .openParen .closeParen depth tokens :=
  ⟨fun h => ⟨h.total, h.never⟩, fun h => ⟨h.total, h.never⟩⟩

end Token

namespace Signature

open Token (Closes IsBalanced)

/-! ## Cutting at parentheses -/

section Cuts

variable {tokens inside after rest : List Token}

theorem cutAtOpen_eq_some_iff : ∀ {tokens inside rest : List Token},
    cutAtOpen tokens = some (inside, rest) ↔ tokens = inside ++ .openParen :: rest ∧ Token.openParen ∉ inside
  | [], inside, rest => by simp [cutAtOpen]
  | t :: tokens, inside, rest => by
    have ih := @cutAtOpen_eq_some_iff tokens
    by_cases ht : t = .openParen
    · subst ht
      simp only [cutAtOpen, Option.some.injEq, Prod.mk.injEq]
      constructor
      · rintro ⟨rfl, rfl⟩
        exact ⟨rfl, List.not_mem_nil⟩
      · rintro ⟨heq, hno⟩
        cases inside with
        | nil => exact ⟨rfl, (List.cons.inj heq).2⟩
        | cons u inside => exact absurd ((List.cons.inj heq).1 ▸ List.mem_cons_self) hno
    · have hcut : cutAtOpen (t :: tokens) = (cutAtOpen tokens).map fun cut => (t :: cut.1, cut.2) := by
        cases t with
        | openParen => exact absurd rfl ht
        | closeParen | comma | word => rfl
      rw [hcut, Option.map_eq_some_iff]
      constructor
      · rintro ⟨⟨front, rest'⟩, hfront, heq⟩
        cases heq
        obtain ⟨rfl, hno⟩ := ih.1 hfront
        refine ⟨rfl, fun hmem => ?_⟩
        exact (List.mem_cons.1 hmem).elim (fun h => ht h.symm) hno
      · rintro ⟨heq, hno⟩
        cases inside with
        | nil => exact absurd (List.cons.inj heq).1 ht
        | cons u inside =>
          obtain ⟨rfl, rfl⟩ := List.cons.inj heq
          exact ⟨(inside, rest), ih.2 ⟨rfl, fun hmem => hno (List.mem_cons_of_mem _ hmem)⟩, rfl⟩

theorem isCutAt_iff_closes {depth : Nat} : IsCutAt .openParen .closeParen depth tokens inside after ↔
    tokens = inside ++ .closeParen :: after ∧ Closes depth inside := by
  rw [Token.closes_iff]
  exact ⟨fun h => ⟨h.eq, h.nested⟩, fun h => ⟨h.1, h.2⟩⟩

/-- The tokens are cut at the parenthesis that closes the first one. -/
theorem cutAtClose_eq_some_iff_isCutAt : ∀ {tokens : List Token} {depth : Nat} {inside after : List Token},
    cutAtClose depth tokens = some (inside, after) ↔ IsCutAt .openParen .closeParen depth tokens inside after
  | [], depth, inside, after => by cases depth <;> simp [cutAtClose, not_isCutAt_nil]
  | t :: tokens, depth, inside, after => by
    -- A token that does not end the list stands before what is cut off behind it.
    have hpass : ∀ {next : Nat}, ((cutAtClose next tokens).map fun cut => (t :: cut.1, cut.2)) =
        some (inside, after) ↔ ∃ front, IsCutAt .openParen .closeParen next tokens front after ∧ t :: front = inside := by
      intro next
      rw [Option.map_eq_some_iff]
      constructor
      · rintro ⟨⟨front, after⟩, hfront, heq⟩
        cases heq
        exact ⟨front, cutAtClose_eq_some_iff_isCutAt.1 hfront, rfl⟩
      · rintro ⟨front, hfront, rfl⟩
        exact ⟨(front, after), cutAtClose_eq_some_iff_isCutAt.2 hfront, rfl⟩
    have hne : Token.openParen ≠ .closeParen := by decide
    cases t with
    | openParen => exact (iff_of_eq (by cases depth <;> rfl)).trans (hpass.trans (isCutAt_opening_iff hne).symm)
    | comma =>
      exact (iff_of_eq (by cases depth <;> rfl)).trans (hpass.trans (isCutAt_other_iff (by decide) (by decide)).symm)
    | word w => exact (iff_of_eq (by cases depth <;> rfl)).trans (hpass.trans (isCutAt_other_iff (by simp) (by simp)).symm)
    | closeParen =>
      cases depth with
      | succ depth => exact hpass.trans (isCutAt_closing_iff hne).symm
      | zero =>
        rw [cutAtClose, isCutAt_zero_closing_iff hne, Option.some.injEq, Prod.mk.injEq]
        exact and_congr eq_comm eq_comm

/-- **The end of a list** is the parenthesis behind tokens that close all others. -/
theorem cutAtClose_eq_some_iff {tokens : List Token} {depth : Nat} {inside after : List Token} :
    cutAtClose depth tokens = some (inside, after) ↔ tokens = inside ++ .closeParen :: after ∧ Closes depth inside :=
  cutAtClose_eq_some_iff_isCutAt.trans isCutAt_iff_closes

end Cuts

/-! ## The parts of a declaration -/

section Parts

/-- The tokens are those of a declaration: `lead` and the name, the list in parentheses, and what follows. -/
structure Decomposes (tokens lead : List Token) (name : Text) (list after : List Token) : Prop where
  tokens_eq : tokens = lead ++ [.word name, .openParen] ++ list ++ [.closeParen] ++ after
  /-- No token before the list is an opening parenthesis, except perhaps the first one. -/
  opening : Token.openParen ∉ (lead ++ [Token.word name]).tail
  balanced : IsBalanced list
  name : NameToken.NamesMethod name
  /-- No token before the name is a word of an expression. -/
  plain : ∀ t ∈ lead, '=' ∉ t.text ∧ t.text ∉ NameToken.reserved

variable {tokens lead list after : List Token} {name : Text}

theorem isExpressive_eq_false_iff {t : Token} :
    isExpressive t = false ↔ '=' ∉ t.text ∧ t.text ∉ NameToken.reserved := by
  cases t with
  | word w => simp [isExpressive, Token.text]
  | openParen | closeParen | comma => exact iff_of_true rfl (by decide)

theorem append_head (lead : List Token) (name : Text) (rest : List Token) :
    lead ++ [.word name, .openParen] ++ rest = (lead ++ [.word name]) ++ .openParen :: rest := by
  rw [List.append_assoc, List.append_assoc]
  rfl

/-- The head of a declaration is what stands before the list. -/
theorem ofTokens?_eq_some_iff {rest : List Token} :
    DeclarationHead.ofTokens? tokens = some ⟨lead, name, rest⟩ ↔
      tokens = lead ++ [.word name, .openParen] ++ rest ∧ Token.openParen ∉ (lead ++ [Token.word name]).tail ∧
        NameToken.isCallable name = true ∧ ∀ t ∈ lead, isExpressive t = false := by
  have hany : (!lead.any isExpressive) = true ↔ ∀ t ∈ lead, isExpressive t = false := by
    rw [Bool.not_eq_true', List.any_eq_false]
    exact forall₂_congr fun t _ => iff_of_eq (Bool.not_eq_true _)
  cases tokens with
  | nil => simp [DeclarationHead.ofTokens?]
  | cons first tokens =>
    constructor
    · intro h
      simp only [DeclarationHead.ofTokens?] at h
      split at h
      · cases h
      · rename_i inside rest' hcut
        obtain ⟨rfl, hno⟩ := cutAtOpen_eq_some_iff.1 hcut
        split at h
        · rename_i name' hlast
          split at h
          · rename_i hcallable
            cases h
            have hhead : (first :: inside).dropLast ++ [.word name] = first :: inside :=
              List.dropLast_append_getLast? _ hlast
            rw [Bool.and_eq_true, hany] at hcallable
            refine ⟨?_, by rwa [hhead], hcallable⟩
            rw [append_head, hhead, List.cons_append]
          · cases h
        · cases h
    · rintro ⟨heq, hno, hcallable, hplain⟩
      obtain ⟨inside, hhead⟩ : ∃ inside, lead ++ [.word name] = first :: inside := by
        cases lead with
        | nil => exact ⟨[], by rw [List.nil_append, (List.cons.inj heq).1]⟩
        | cons t lead => exact ⟨lead ++ [.word name], by rw [List.cons_append, (List.cons.inj heq).1]⟩
      rw [hhead, List.tail_cons] at hno
      rw [append_head, hhead, List.cons_append] at heq
      have hcut : cutAtOpen tokens = some (inside, rest) :=
        cutAtOpen_eq_some_iff.2 ⟨(List.cons.inj heq).2, hno⟩
      have hlast : (first :: inside).getLast? = some (.word name) := by rw [← hhead, List.getLast?_concat]
      have hlead : (first :: inside).dropLast = lead := by rw [← hhead, List.dropLast_concat]
      simp only [DeclarationHead.ofTokens?, hcut, hlast, hlead, hcallable, hany.2 hplain, Bool.and_self, if_true]

/-- **The reader cuts tokens as declarations are made,** and only so. -/
theorem decomposes_iff : Decomposes tokens lead name list after ↔
    ∃ rest, DeclarationHead.ofTokens? tokens = some ⟨lead, name, rest⟩ ∧ cutAtClose 0 rest = some (list, after) := by
  constructor
  · rintro ⟨heq, hno, hbalanced, hname, hplain⟩
    refine ⟨list ++ .closeParen :: after, ofTokens?_eq_some_iff.2 ⟨?_, hno, NameToken.isCallable_iff.2 hname, ?_⟩,
      cutAtClose_eq_some_iff.2 ⟨rfl, hbalanced⟩⟩
    · rw [heq, List.append_assoc, List.append_assoc, List.singleton_append]
    · exact fun t ht => isExpressive_eq_false_iff.2 (hplain t ht)
  · rintro ⟨rest, hhead, hcut⟩
    obtain ⟨rfl, hno, hcallable, hplain⟩ := ofTokens?_eq_some_iff.1 hhead
    obtain ⟨rfl, hbalanced⟩ := cutAtClose_eq_some_iff.1 hcut
    refine ⟨?_, hno, hbalanced, NameToken.isCallable_iff.1 hcallable, ?_⟩
    · rw [List.append_assoc _ [_], List.singleton_append, ← List.append_assoc]
    · exact fun t ht => isExpressive_eq_false_iff.1 (hplain t ht)

/-- Tokens are cut in one way only. -/
theorem Decomposes.unique {lead' list' after' : List Token} {name' : Text} (h : Decomposes tokens lead name list after)
    (h' : Decomposes tokens lead' name' list' after') :
    lead = lead' ∧ name = name' ∧ list = list' ∧ after = after' := by
  obtain ⟨rest, hhead, hcut⟩ := decomposes_iff.1 h
  obtain ⟨rest', hhead', hcut'⟩ := decomposes_iff.1 h'
  rw [hhead] at hhead'
  cases hhead'
  rw [hcut] at hcut'
  cases hcut'
  exact ⟨rfl, rfl, rfl, rfl⟩

end Parts
end Signature
end DocLint
