import Mathlib.Data.List.Nodup
import DocLint.Proofs.Compliance.Entry
import DocLint.Proofs.Method.Documented
import DocLint.Proofs.Method.OneLine
import DocLint.Proofs.Parameter.Spelled
import DocLint.Proofs.Signature.Spacing
import DocLint.Proofs.Signature.VoidLine

/-!
# Quoting the types of a declaration

A comment that quotes the type of every parameter (`Compliance.quotation`) stands above the declaration of a method with
these parameters (`Compliance.declaration`). The types that are looked for in the comment are those of the signature,
which has them respaced (`Compliance.ofLines_quotation`). So the comment leaves findings when respacing changes a type
(`Method.findings_quoted`), although it has every type as the declaration spells it.
-/

namespace DocLint
namespace Compliance

open Text (isBlank trim trimStart spaced)
open Parameter (spellings)

/-! ## The comment -/

section Comment

/-- The comment that quotes the type of every parameter as it is spelled. -/
def quotation (ps : List Parameter) : List Text :=
  commentLines (ps.map fun p => entryLine "param".toList p.name p.type ['d'])

/-- An entry line for the parameter, from behind its `@`. -/
def quote (p : Parameter) : Text := "param".toList ++ ' ' :: (p.name ++ '[' :: (p.type ++ ']' :: " - d".toList))

theorem opens_quotation (ps : List Parameter) : ∀ line ∈ (quotation ps).head?, DocComment.opens line = true :=
  opens_commentLines

theorem isClosed_quotation (ps : List Parameter) : DocComment.IsClosed (quotation ps) := by
  refine isClosed_commentLines fun line hline => ?_
  obtain ⟨p, -, rfl⟩ := List.mem_map.1 hline
  exact closes_entryLine (by decide)

theorem trim_entryLine (p : Parameter) :
    trim (entryLine "param".toList p.name p.type ['d']) = '*' :: ' ' :: '@' :: quote p := by
  have hline : entryLine "param".toList p.name p.type ['d'] = [' '] ++ '*' :: ' ' :: '@' :: quote p := by
    simp [entryLine, entry, quote]
  have hend : '*' :: ' ' :: '@' :: quote p =
      ('*' :: ' ' :: '@' :: ("param".toList ++ ' ' :: (p.name ++ '[' :: (p.type ++ ']' :: " - ".toList)))) ++ ['d'] := by
    simp [quote]
  have hlast : ∀ c ∈ ('*' :: ' ' :: '@' :: quote p).getLast?, isBlank c = false := by
    rw [hend, List.getLast?_concat]
    simp [isBlank]
  have hstart := (@Text.trimStart_append [' '] ('*' :: ' ' :: '@' :: quote p) (by simp [isBlank])
    fun c hc => by cases hc; rfl).2
  rw [trim, hline, hstart, Text.trimEnd_eq_self_iff.2 hlast]

theorem spaced_quotation (ps : List Parameter) : spaced ((quotation ps).map trim) =
    "/**".toList ++ (ps.flatMap fun p => " * ".toList ++ '@' :: quote p) ++ " */".toList := by
  have hopen : trim "/**".toList = "/**".toList := by decide
  have hclose : trim " */".toList = "*/".toList := by decide
  have hmap : (quotation ps).map trim =
      "/**".toList :: (ps.map (fun p => '*' :: ' ' :: '@' :: quote p) ++ ["*/".toList]) := by
    rw [quotation, commentLines, List.map_cons, List.map_append, List.map_map, List.map_singleton, hopen, hclose]
    exact congrArg _ (congrArg (· ++ _) (List.map_congr_left fun p _ => trim_entryLine p))
  rw [hmap, Text.spaced_cons, List.flatMap_append, List.flatMap_map]
  simp

/-- What follows an `@` in the comment is one of the entries. -/
theorem quote_prefix_of_at {ps : List Parameter} (hplain : ∀ p ∈ ps, '@' ∉ quote p) {s : Text} (hs : '@' ∉ s)
    {t before after : Text} (ht : '@' ∉ t)
    (heq : s ++ (ps.flatMap fun p => " * ".toList ++ '@' :: quote p) ++ t = before ++ '@' :: after) :
    ∃ p ∈ ps, quote p <+: after := by
  induction ps generalizing s before with
  | nil =>
    have hmem : '@' ∈ s ++ t := by
      rw [List.flatMap_nil, List.append_nil] at heq
      simp [heq]
    exact absurd hmem (by simp [hs, ht])
  | cons p ps ih =>
    obtain ⟨hp, hrest⟩ := List.forall_mem_cons.1 hplain
    have hlead : '@' ∉ s ++ " * ".toList := by simp [hs]
    have hcut : (s ++ " * ".toList) ++ '@' :: (quote p ++ (ps.flatMap fun p => " * ".toList ++ '@' :: quote p) ++ t) =
        before ++ '@' :: after := by
      rw [← heq]
      simp
    rcases Text.eq_or_of_append_cons hlead hcut with ⟨-, hafter⟩ | ⟨u, -, hu⟩
    · refine ⟨p, List.mem_cons_self, ?_⟩
      rw [← hafter, List.append_assoc]
      exact List.prefix_append _ _
    · obtain ⟨q, hq, hprefix⟩ := ih hrest hp hu
      exact ⟨q, List.mem_cons_of_mem _ hq, hprefix⟩

/-- The comment has an entry for every parameter with the type as it is spelled. -/
theorem hasParam_quotation_self {ps : List Parameter} {q : Parameter} (hq : q ∈ ps) (hname : Parameter.isName q.name = true) :
    hasParam q (spaced ((quotation ps).map trim)) = true :=
  hasEntry_of_entryLine (Parameter.head?_of_isName hname _)
    (List.mem_cons_of_mem _ (List.mem_append_left _ (List.mem_map.2 ⟨q, hq, rfl⟩)))

/-- If no type has an `@` in it, the comment has no other entries. -/
theorem hasParam_quotation_iff {ps : List Parameter} (h : ∀ p ∈ ps, p.IsSpelled) (hat : ∀ p ∈ ps, '@' ∉ p.type)
    {p : Parameter} (hp : p.IsSpelled) : hasParam p (spaced ((quotation ps).map trim)) = true ↔ p ∈ ps := by
  refine ⟨fun hhas => ?_, fun hmem => hasParam_quotation_self hmem hp.named⟩
  obtain ⟨before, gap, gap', rest, -, hgap, -, heq⟩ := (hasEntry_iff (Parameter.head?_of_isName hp.named _)).1 hhas
  rw [spaced_quotation] at heq
  have hplain : ∀ q ∈ ps, '@' ∉ quote q := fun q hq => by
    have hname : '@' ∉ q.name := Parameter.not_mem_of_isName (h q hq).named (by decide)
    simp [quote, hname, hat q hq]
  obtain ⟨q, hq, behind, hbehind⟩ := quote_prefix_of_at hplain (by decide) (by decide) heq
  have hq' := h q hq
  -- Both entries begin alike, so they agree in the name, and then in the type.
  have htag : "param".toList ++ ([' '] ++ (q.name ++ '[' :: (q.type ++ ']' :: (" - d".toList ++ behind)))) =
      "param".toList ++ (gap ++ (p.name ++ '[' :: (p.type ++ ']' :: (gap' ++ '-' :: rest)))) := by
    simpa [quote] using hbehind
  have htrim := congrArg trimStart (List.append_cancel_left htag)
  rw [(Text.trimStart_append (by simp [isBlank]) (Parameter.head?_of_isName hq'.named _)).2,
    (Text.trimStart_append hgap (Parameter.head?_of_isName hp.named _)).2] at htrim
  have hname : q.name = p.name := by
    have hbefore := congrArg (Text.before '[') htrim
    rwa [Text.before_append_cons (Parameter.not_mem_of_isName hq'.named (by decide)),
      Text.before_append_cons (Parameter.not_mem_of_isName hp.named (by decide))] at hbefore
  have htype : q.type = p.type := by
    rw [hname] at htrim
    exact eq_of_closed_append hq'.closed hp.closed (List.cons.inj (List.append_cancel_left htrim)).2
  obtain rfl : q = p := by
    cases q
    cases p
    cases hname
    cases htype
    rfl
  exact hq

end Comment

/-! ## The declaration below it -/

section Declared

variable {ps : List Parameter}

/-- The line `void f(...);` that declares the parameters. -/
def declaration (ps : List Parameter) : Text := Signature.voidLine (spellings ps)

/-- The declaration is a method by itself unless it leaves braces open, and has the comment above it. Its signature has
the types respaced. -/
theorem ofLines_quotation (h : ∀ p ∈ ps, p.IsSpelled) :
    Method.ofLines (quotation ps ++ [declaration ps]) =
      if (declaration ps).count '{' ≤ (declaration ps).count '}' then
        [⟨⟨⟨"void".toList, "f".toList, .method, Signature.voidLine (Token.respaced (spellings ps))⟩,
            ps.map Parameter.respell, (quotation ps).length + 1, (quotation ps).length + 1⟩,
          some ⟨1, (quotation ps).length, (quotation ps).map trim⟩⟩]
      else [] := by
  have hbrackets := Parameter.readBrackets_spellings h
  have hparams : Parameter.ofSignature (Signature.voidLine (Token.respaced (spellings ps))) = ps.map Parameter.respell := by
    rw [Parameter.ofSignature, Parameter.list?_voidLine ((readBrackets_respaced [] _).trans hbrackets)]
    exact Parameter.ofText?_spellings h
  have htrim : trim (declaration ps) = declaration ps := Signature.trim_voidLine _
  have hopens : DocComment.opens (declaration ps) = false := by
    rw [DocComment.opens, htrim]
    rfl
  have hsignature : Signature.ofLine? (trim (declaration ps)) =
      some ⟨"void".toList, "f".toList, .method, Signature.voidLine (Token.respaced (spellings ps))⟩ :=
    htrim.symm ▸ Signature.ofLine?_voidLine hbrackets
  have hend : (trim (declaration ps)).getLast? = some ';' := htrim.symm ▸ Signature.getLast?_voidLine _
  have hcomment := ScanState.scan_comment (opens_quotation ps) (isClosed_quotation ps) none 1 [declaration ps]
  rw [Method.ofLines, hcomment, ScanState.scan_oneLine hopens hsignature hend, hparams, htrim, Nat.add_comm 1]
  rfl

/-- There are no findings exactly if the declaration is no method or the comment has an entry for every parameter with
its type respaced. -/
theorem findings_quotation (h : ∀ p ∈ ps, p.IsSpelled) (path : Path) :
    findings path (Method.ofLines (quotation ps ++ [declaration ps])) = [] ↔
      (declaration ps).count '}' < (declaration ps).count '{' ∨
        ∀ p ∈ ps, hasParam p.respell (spaced ((quotation ps).map trim)) = true := by
  rw [ofLines_quotation h]
  split
  · rename_i hclosed
    have hnone : ∀ {params : List Parameter} {doc : Text},
        params.filter (fun p => !hasParam p doc) = [] ↔ ∀ p ∈ params, hasParam p doc = true := by
      simp
    simp only [findings, List.flatMap_singleton, methodFindings, paramFindings, returnFindings, returnsValue,
      Signature.declaresVoid_voidLine, Bool.not_true, Bool.and_false, Bool.false_and, Bool.false_eq_true, if_false,
      List.append_nil, List.map_eq_nil_iff, hnone, List.forall_mem_map, DocComment.text]
    exact (or_iff_right (Nat.not_lt_of_le hclosed)).symm
  · rename_i hopen
    simp [findings, Nat.lt_of_not_le hopen]

end Declared
end Compliance

/-- **Quoting the types of a declaration.** A comment that quotes every type as the declaration spells it leaves no
findings exactly if it has an entry for every respaced type too, or the declaration is no method because it leaves braces
open. If all types are spaced as signatures are, there are no findings. Without an `@` in the types the comment has no
entries but its own, so a type in other spacing is found wrong unless a parameter of the same name has it respaced. -/
theorem Method.findings_quoted {ps : List Parameter} (h : ∀ p ∈ ps, p.IsSpelled) (path : Path) :
    let lines := Compliance.quotation ps ++ [Compliance.declaration ps]
    let quiet := Compliance.findings path (ofLines lines) = []
    let unclosed := (Compliance.declaration ps).count '}' < (Compliance.declaration ps).count '{'
    let comment := Text.spaced ((Compliance.quotation ps).map Text.trim)
    (quiet ↔ unclosed ∨ ∀ p ∈ ps, Compliance.hasParam p.respell comment = true) ∧
    ((∀ p ∈ ps, Token.IsSpaced p.type) → quiet) ∧
    ((∀ p ∈ ps, '@' ∉ p.type) → (quiet ↔ unclosed ∨ ∀ p ∈ ps, p.respell ∈ ps) ∧
      ((ps.map Parameter.name).Nodup → (quiet ↔ unclosed ∨ ∀ p ∈ ps, Token.IsSpaced p.type))) := by
  intro lines quiet unclosed comment
  have hquiet : quiet ↔ unclosed ∨ ∀ p ∈ ps, Compliance.hasParam p.respell comment = true :=
    Compliance.findings_quotation h path
  refine ⟨hquiet, fun hspaced => hquiet.2 (.inr fun p hp => ?_), fun hat => ?_⟩
  · rw [(Parameter.respell_eq_self_iff (h p hp)).2 (hspaced p hp)]
    exact Compliance.hasParam_quotation_self hp (h p hp).named
  · have hmem : quiet ↔ unclosed ∨ ∀ p ∈ ps, p.respell ∈ ps :=
      hquiet.trans (or_congr_right (forall₂_congr fun p hp =>
        Compliance.hasParam_quotation_iff h hat (h p hp).respell))
    refine ⟨hmem, fun hnames => hmem.trans (or_congr_right (forall₂_congr fun p hp => ?_))⟩
    rw [← Parameter.respell_eq_self_iff (h p hp)]
    constructor
    · exact fun hrespell => List.inj_on_of_nodup_map hnames hrespell hp rfl
    · exact fun heq => heq.symm ▸ hp

/-- A type with a comma in angle brackets and a reference, both spaced as signatures are. -/
theorem Method.findings_quoted_map :
    let ps : List Parameter := [⟨"std::map<int, T> &".toList, "table".toList⟩, ⟨"const char *".toList, "key".toList⟩]
    (∀ p ∈ ps, p.IsSpelled) ∧ (∀ p ∈ ps, Token.IsSpaced p.type) ∧
      ∀ path, Compliance.findings path (ofLines (Compliance.quotation ps ++ [Compliance.declaration ps])) = [] := by
  intro ps
  have hspelled : ∀ p ∈ ps, p.IsSpelled := by decide +kernel
  have hspaced : ∀ p ∈ ps, Token.IsSpaced p.type := by decide +kernel
  exact ⟨hspelled, hspaced, fun path => (Method.findings_quoted hspelled path).2.1 hspaced⟩

/-- The type of a callback has a parenthesis that is closed before another bracket, which signatures write with a space
between the two. Its comment is found wrong. -/
theorem Method.findings_quoted_callback :
    let p : Parameter := ⟨"std::function<void(int)>".toList, "cb".toList⟩
    p.IsSpelled ∧
      ∀ path, Compliance.findings path (ofLines (Compliance.quotation [p] ++ [Compliance.declaration [p]])) ≠ [] := by
  intro p
  have hspelled : p.IsSpelled := by decide +kernel
  refine ⟨hspelled, fun path => ?_⟩
  rw [Ne, Compliance.findings_quotation (by simpa using hspelled)]
  decide +kernel

end DocLint
