import DocLint.Proofs.Parameter
import DocLint.Proofs.Parameter.Whole
import DocLint.Proofs.Signature.Spacing

/-!
# Parameters as a declaration spells them

A declaration spells a parameter as its type, a space and its name (`Parameter.spelling`). `Parameter.IsSpelled` says which
types can be spelled so. A list of such parameters is read back from the spacing of a signature with every type respaced
(`Parameter.ofText?_spellings`).
-/

namespace DocLint
namespace Parameter

open Text (isBlank isWordChar trim)
open Token (respaced isInner)

/-! ## One parameter -/

section One

/-- The parameter as it stands in a list. -/
def spelling (p : Parameter) : Text := p.type ++ ' ' :: p.name

/-- The type is trimmed, ends in a word, in `>`, `]`, `*` or `&`, stands in one line without a default value, and closes
the brackets that it opens, with no comma outside of them. The name is an identifier. -/
structure IsSpelled (p : Parameter) : Prop where
  trimmed : trim p.type = p.type
  ends : p.type.getLast?.any endsType = true
  plain : '=' ∉ p.type
  oneLine : '\n' ∉ p.type
  closed : readBrackets [] p.type = some []
  whole : hasOuterComma [] p.type = false
  named : isName p.name = true

instance (p : Parameter) : Decidable p.IsSpelled :=
  decidable_of_iff
    (trim p.type = p.type ∧ p.type.getLast?.any endsType = true ∧ '=' ∉ p.type ∧ '\n' ∉ p.type ∧
      readBrackets [] p.type = some [] ∧ hasOuterComma [] p.type = false ∧ isName p.name = true)
    ⟨fun ⟨htrim, hends, hplain, hline, hclosed, hwhole, hname⟩ => ⟨htrim, hends, hplain, hline, hclosed, hwhole, hname⟩,
      fun h => ⟨h.trimmed, h.ends, h.plain, h.oneLine, h.closed, h.whole, h.named⟩⟩

/-- The parameter with its type in the spacing of a signature. -/
def respell (p : Parameter) : Parameter := { p with type := respaced p.type }

variable {p : Parameter}

theorem IsSpelled.exists_last (h : p.IsSpelled) : ∃ last, p.type.getLast? = some last ∧ endsType last = true :=
  (Option.any_eq_true _ _).1 h.ends

/-- A text that closes its brackets closes its array brackets. -/
theorem closesArrays_of_closed {s : Text} (h : readBrackets [] s = some []) : ClosesArrays s := by
  rintro front back rfl
  by_contra hback
  rw [readBrackets_append] at h
  obtain ⟨awaited, -, hopen⟩ := Option.bind_eq_some_iff.1 h
  rw [readBrackets_cons, show readBracket awaited '[' = some (']' :: awaited) from rfl] at hopen
  exact absurd (mem_of_readBrackets hback hopen List.mem_cons_self) List.not_mem_nil

theorem ofText?_spelling (h : p.IsSpelled) : ofText? p.spelling = some p := by
  obtain ⟨last, hlast, hends⟩ := h.exists_last
  have hread := ofText?_declared h.trimmed hlast hends (closesArrays_of_closed h.closed) h.plain h.oneLine h.named
    isArray_nil List.not_mem_nil
  simpa [spelling, Text.squeeze] using hread

/-- A parameter can still be spelled when its type is respaced. -/
theorem IsSpelled.respell (h : p.IsSpelled) : p.respell.IsSpelled where
  trimmed := Token.trim_respaced p.type
  ends := by
    obtain ⟨last, hlast, hends⟩ := h.exists_last
    rw [Parameter.respell, Token.getLast?_respaced (isBlank_of_endsType hends) hlast]
    exact hends
  plain := mt (Token.mem_respaced_iff rfl).1 h.plain
  oneLine := fun hm => absurd (Token.eq_space_of_mem_join rfl Token.proper_of_mem_scan hm) (by decide)
  closed := (readBrackets_respaced [] p.type).trans h.closed
  whole := (hasOuterComma_respaced [] p.type).trans h.whole
  named := h.named

/-- Respelling leaves a parameter alone exactly if its type is spaced as signatures are. -/
theorem respell_eq_self_iff (h : p.IsSpelled) : p.respell = p ↔ Token.IsSpaced p.type := by
  rw [← Token.respaced_eq_self_iff h.trimmed]
  constructor
  · exact congrArg Parameter.type
  · intro heq
    rw [Parameter.respell, heq]

/-- A word character is no mark of a signature. -/
theorem plain_of_isWordChar {c : Char} (h : isWordChar c = true) :
    isInner c = true ∧ isOpening c = false ∧ isClosing c = false := by
  have hne : ∀ d, isWordChar d = false → c ≠ d := fun d hd => ne_of_apply_ne isWordChar (by simp [h, hd])
  have hmark : Token.ofChar? c = none := by
    refine Option.eq_none_iff_forall_ne_some.2 fun mark hmark => ?_
    rcases Token.ofChar?_eq_some hmark with ⟨hc, -⟩ | ⟨hc, -⟩ | ⟨hc, -⟩
    · exact hne '(' (by decide) hc
    · exact hne ')' (by decide) hc
    · exact hne ',' (by decide) hc
  refine ⟨by simp [isInner, Text.isBlank_of_isWordChar h, hmark], ?_, ?_⟩
  · simp [isOpening, hne '<' (by decide), hne '[' (by decide), hne '(' (by decide)]
  · simp [isClosing, hne '>' (by decide), hne ']' (by decide), hne ')' (by decide)]

theorem respaced_spelling (h : p.IsSpelled) : respaced p.spelling = p.respell.spelling := by
  obtain ⟨last, hlast, hends⟩ := h.exists_last
  have hopen : last ≠ '(' := by
    rintro rfl
    cases hends
  exact Token.respaced_append_word hlast (isBlank_of_endsType hends) hopen (ne_nil_of_isName h.named)
    fun c hc => (plain_of_isWordChar (all_isWordChar_of_isName h.named c hc)).1

/-- What is behind the type has neither brackets nor commas. -/
theorem plain_of_mem_name (h : p.IsSpelled) : ∀ c ∈ ' ' :: p.name, isOpening c = false ∧ isClosing c = false ∧ c ≠ ',' := by
  refine List.forall_mem_cons.2 ⟨by decide, fun c hc => ?_⟩
  obtain ⟨-, hopening, hclosing⟩ := plain_of_isWordChar (all_isWordChar_of_isName h.named c hc)
  refine ⟨hopening, hclosing, ?_⟩
  rintro rfl
  exact not_mem_of_isName h.named (by decide) hc

/-- A spelled parameter is one part of a list. -/
theorem IsSpelled.isWhole_spelling (h : p.IsSpelled) : IsWhole p.spelling := by
  have htype : IsWhole p.type := ⟨h.closed, h.whole⟩
  refine htype.append ⟨readBrackets_of_plain (fun c hc => ?_) [], ?_⟩
  · exact ⟨(plain_of_mem_name h c hc).1, (plain_of_mem_name h c hc).2.1⟩
  · exact hasOuterComma_of_not_mem (fun hm => (plain_of_mem_name h ',' hm).2.2 rfl) []

end One

/-! ## A list of parameters -/

section Several

/-- The parameters as a list that a declaration has. -/
def spellings (ps : List Parameter) : Text := List.intercalate ", ".toList (ps.map spelling)

theorem spellings_cons_cons (p q : Parameter) (ps : List Parameter) :
    spellings (p :: q :: ps) = p.spelling ++ ',' :: ' ' :: spellings (q :: ps) :=
  commaSeparated_cons_cons p.spelling q.spelling (ps.map spelling)

variable {ps : List Parameter}

/-- A list of spelled parameters closes the brackets that it opens. -/
theorem readBrackets_spellings (h : ∀ p ∈ ps, p.IsSpelled) : readBrackets [] (spellings ps) = some [] :=
  readBrackets_commaSeparated (List.forall_mem_map.2 fun p hp => (h p hp).isWhole_spelling)

/-- A respelled parameter is trimmed. -/
theorem trim_respell_spelling {p : Parameter} (h : p.IsSpelled) :
    trim p.respell.spelling = p.respell.spelling ∧ trim p.respell.spelling ≠ [] := by
  have htrim : trim p.respell.spelling = p.respell.spelling := by
    rw [← respaced_spelling h]
    exact Token.trim_respaced _
  refine ⟨htrim, ?_⟩
  rw [htrim]
  simp [spelling]

/-- In the spacing of a signature, a list of spelled parameters has the respelled parameters as its parts. -/
theorem parts_respaced_spellings : ∀ {ps : List Parameter}, (∀ p ∈ ps, p.IsSpelled) →
    parts (respaced (spellings ps)) = ps.map fun p => p.respell.spelling
  | [], _ => rfl
  | [p], h => by
    have hp := h p List.mem_cons_self
    have hwhole := hp.respell.isWhole_spelling
    obtain ⟨htrim, hne⟩ := trim_respell_spelling hp
    have hlist : spellings [p] = p.spelling := by simp [spellings]
    rw [hlist, respaced_spelling hp, parts_whole hwhole.closed hwhole.uncut hne, htrim]
    rfl
  | p :: q :: ps, h => by
    obtain ⟨hp, hrest⟩ := List.forall_mem_cons.1 h
    have hwhole := hp.respell.isWhole_spelling
    obtain ⟨htrim, hne⟩ := trim_respell_spelling hp
    obtain ⟨gap, hgap, hcomma⟩ := Token.respaced_comma p.spelling (' ' :: spellings (q :: ps))
    rw [Token.respaced_cons_blank rfl, respaced_spelling hp] at hcomma
    rw [spellings_cons_cons, hcomma, parts_comma hwhole.closed hwhole.uncut hne, parts_append_of_blank hgap, htrim,
      parts_respaced_spellings hrest]
    rfl

/-- **A list of parameters is read back from a signature** as it was spelled, but for the spacing of the types. -/
theorem ofText?_spellings (h : ∀ p ∈ ps, p.IsSpelled) :
    (parts (respaced (spellings ps))).filterMap ofText? = ps.map respell := by
  rw [parts_respaced_spellings h, List.filterMap_map, ← List.filterMap_eq_map]
  exact List.filterMap_congr fun p hp => ofText?_spelling (h p hp).respell

end Several
end Parameter
end DocLint
