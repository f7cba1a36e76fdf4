import DocLint.Proofs.Compliance.Entry
import DocLint.Proofs.Method.Documented
import DocLint.Proofs.Parameter

/-!
# Following the advice of the findings

The findings of a method ask for entries with the types that its signature has. A comment with just these entries
(`Declaration.advice`) goes to the method that it is written above, and then the method has no findings
(`Method.findings_advised`).
-/

namespace DocLint

/-- The comment that the findings ask for: an entry for every parameter and one for the return type. -/
def Declaration.advice (remark : Text) (d : Declaration) : List Text :=
  Compliance.commentLines (d.params.map (fun p => Compliance.entryLine "param".toList p.name p.type remark) ++
    [Compliance.entryLine "return".toList [] d.signature.returnType remark])

/-! ## The advised comment -/

namespace Compliance

variable {d : Declaration} {remark : Text}

theorem isClosed_advice (h : DocComment.closes remark = false) : DocComment.IsClosed (d.advice remark) := by
  refine isClosed_commentLines fun line hline => ?_
  rcases List.mem_append.1 hline with hline | hline
  · obtain ⟨p, -, rfl⟩ := List.mem_map.1 hline
    exact closes_entryLine h
  · rw [List.mem_singleton.1 hline]
    exact closes_entryLine h

theorem param_mem_advice {p : Parameter} (hp : p ∈ d.params) :
    entryLine "param".toList p.name p.type remark ∈ d.advice remark :=
  List.mem_cons_of_mem _ (List.mem_append_left _ (List.mem_append_left _ (List.mem_map.2 ⟨p, hp, rfl⟩)))

theorem return_mem_advice : entryLine "return".toList [] d.signature.returnType remark ∈ d.advice remark :=
  List.mem_cons_of_mem _ (List.mem_append_left _ (List.mem_append_right _ (List.mem_singleton.2 rfl)))

/-- A method whose comment has an entry for every parameter and for the return type has no findings. -/
theorem methodFindings_eq_nil {m : Method} {comment : DocComment} (path : Path) (hcomment : m.comment = some comment)
    (hparams : ∀ p ∈ m.declaration.params, hasParam p comment.text = true)
    (hreturn : hasReturn m.declaration.signature.returnType comment.text = true) : methodFindings path m = [] := by
  have hnone : m.declaration.params.filter (fun p => !hasParam p comment.text) = [] :=
    List.filter_eq_nil_iff.2 fun p hp => by simp [hparams p hp]
  simp [methodFindings, hcomment, paramFindings, hnone, returnFindings, hreturn]

end Compliance

/-- **Following the advice silences it.** Let a file begin with a method. With the comment that the findings ask for
written above it, the method is found further down with that comment, the other methods are found further down, and the
method has no findings, whatever the path of the file is. -/
theorem Method.findings_advised {lines : List Text} {m : Method} {rest : List Method} (h : ofLines lines = m :: rest)
    (hstart : m.declaration.startLine = 1) {remark : Text} (hremark : DocComment.closes remark = false) :
    let block := m.declaration.advice remark
    let documented := (m.shift block.length).withComment (some ⟨1, block.length, block.map Text.trim⟩)
    ofLines (block ++ lines) = documented :: rest.map (·.shift block.length) ∧
      ∀ path, Compliance.findings path [documented] = [] := by
  intro block documented
  refine ⟨ofLines_documented Compliance.opens_commentLines (Compliance.isClosed_advice hremark) h hstart, fun path => ?_⟩
  have hparams : m.declaration.params = Parameter.ofSignature m.declaration.signature.text :=
    params_eq (h ▸ List.mem_cons_self)
  have hnone : Compliance.methodFindings path documented = [] := by
    refine Compliance.methodFindings_eq_nil path rfl (fun p hp => ?_) ?_
    · have hname : Parameter.isName p.name = true := Parameter.isName_of_mem_ofSignature (hparams ▸ hp)
      exact Compliance.hasEntry_of_entryLine (Parameter.head?_of_isName hname _) (Compliance.param_mem_advice hp)
    · exact Compliance.hasEntry_of_entryLine (by simp [Text.isBlank]) Compliance.return_mem_advice
  simp [Compliance.findings, hnone]

/-- The advice for a method with brackets in its types, above another method. -/
theorem Method.findings_advised_brackets :
    let lines := ["std::map<int, T> *find(const std::string &key, int flags[2]) const \x7b".toList, "\x7d".toList,
      "void next();".toList]
    ∃ m rest, Method.ofLines lines = m :: rest ∧ m.declaration.startLine = 1 ∧ DocComment.closes "x".toList = false ∧
      (m.declaration.advice "x".toList).length = 5 ∧
      ∀ path, Compliance.findings path [(m.shift 5).withComment
        (some ⟨1, 5, (m.declaration.advice "x".toList).map Text.trim⟩)] = [] := by
  intro lines
  have hstarts : (Method.ofLines lines).map (fun m => (m.declaration.startLine, m.declaration.params.length)) =
      [(1, 2), (3, 0)] := by decide +kernel
  obtain ⟨m, rest, h, hm, -⟩ := List.map_eq_cons_iff.1 hstarts
  obtain ⟨hstart, hcount⟩ := Prod.mk.inj hm
  have hremark : DocComment.closes "x".toList = false := by decide
  have hlength : (m.declaration.advice "x".toList).length = 5 := by
    simp [Declaration.advice, Compliance.commentLines, hcount]
  have hadvised := (Method.findings_advised h hstart hremark).2
  rw [hlength] at hadvised
  exact ⟨m, rest, h, hstart, hremark, hlength, hadvised⟩

end DocLint
