import DocLint.Signature.VoidResult
import DocLint.Proofs.Parameter.Bracket

/-!
# The declaration of a method without a value

A line `void f(...);` with any list that closes its brackets declares the method `f`. Its signature is the same line with
the list respaced (`Signature.ofLine?_voidLine`), from which the list is read again (`Parameter.list?_voidLine`).
-/

namespace DocLint
namespace Signature

open Text (isBlank trim)
open Token (scan join respaced)

/-! ## The line -/

section Line

/-- The line `void f(...);` with the given list. -/
def voidLine (list : Text) : Text := "void".toList ++ ' ' :: ("f".toList ++ '(' :: (list ++ ')' :: [';']))

theorem getLast?_voidLine (list : Text) : (voidLine list).getLast? = some ';' := by
  have hend : voidLine list = "void".toList ++ ' ' :: ("f".toList ++ '(' :: (list ++ [')'])) ++ [';'] := by
    simp [voidLine]
  rw [hend, List.getLast?_concat]

theorem trim_voidLine (list : Text) : trim (voidLine list) = voidLine list := by
  refine Text.trim_eq_self_iff.2 ⟨fun c hc => ?_, fun c hc => ?_⟩
  · obtain rfl : 'v' = c := by simpa [voidLine] using hc
    decide
  · rw [getLast?_voidLine] at hc
    cases hc
    decide

theorem scan_voidLine (list : Text) : scan (voidLine list) =
    .word "void".toList :: .word "f".toList :: .openParen :: (scan list ++ [.closeParen, .word [';']]) := by
  have hlist : scan (list ++ ')' :: [';']) = scan list ++ .closeParen :: scan [';'] := Token.scanFrom_mark rfl _ [] list
  have hcall : scan ("f".toList ++ '(' :: (list ++ ')' :: [';'])) =
      scan "f".toList ++ .openParen :: scan (list ++ ')' :: [';']) := Token.scanFrom_mark rfl _ [] _
  have hvoid : scan (voidLine list) = scan "void".toList ++ scan ("f".toList ++ '(' :: (list ++ ')' :: [';'])) :=
    Token.scanFrom_blank (by decide) _ [] _
  rw [hvoid, hcall, hlist]
  rfl

end Line

/-! ## Its signature -/

section Read

variable {list : Text}

/-- A line that declares a method with a list declares it with the list respaced. -/
theorem ofLine?_voidLine (h : readBrackets [] list = some []) : ofLine? (voidLine list) =
    some ⟨"void".toList, "f".toList, .method, voidLine (respaced list)⟩ := by
  have hremark : isRemark (voidLine list) = false := rfl
  have hempty : (voidLine list).isEmpty = false := rfl
  have hhead : DeclarationHead.ofTokens? (scan (voidLine list)) =
      some ⟨[.word "void".toList], "f".toList, scan list ++ [.closeParen, .word [';']]⟩ := by
    rw [scan_voidLine]
    rfl
  have hcut : cutAtClose 0 (scan list ++ [.closeParen, .word [';']]) = some (scan list, [.word [';']]) := by
    have hbrackets : readBrackets [] ((scan list).flatMap Token.text) = some [] := by
      rw [scan, Token.flatMap_text_scanFrom, List.nil_append, readBrackets_squeeze, h]
    have happend := cutAtClose_append Token.proper_of_mem_scan hbrackets [.closeParen, .word [';']]
    simpa [cutAtClose] using happend
  have htext : join ([.word "void".toList] ++ [.word "f".toList, .openParen] ++ scan list ++ [.closeParen]) ++ [';'] =
      voidLine (respaced list) := by
    have hclose : join (scan list ++ [.closeParen]) = respaced list ++ [')'] :=
      Token.join_append_of_glued (fun last _ => by cases last <;> rfl) []
    simp only [List.cons_append, List.nil_append]
    rw [Token.join_cons_cons, Token.join_cons_cons, Token.join_openParen, hclose]
    simp [voidLine, Token.text, Token.space, Token.glued]
  have hend : endMark (voidLine list) = [';'] := by
    rw [endMark, getLast?_voidLine]
    rfl
  have hform : formOf [.word "void".toList] "f".toList = .method := by decide
  have htype : returnTypeOf [.word "void".toList] "f".toList = "void".toList := by decide
  have hqualifiers : readQualifiers [.word [';']] = [] := by
    rw [readQualifiers]
    · rfl
    · rintro _ _ ⟨⟩
  simp only [ofLine?, trim_voidLine, hremark, hempty, hhead, hcut, hform, htype, hqualifiers, hend, Bool.or_self,
    Bool.false_eq_true, if_false, if_true, List.append_nil, htext]

/-- The method returns nothing. -/
theorem declaresVoid_voidLine (list : Text) : declaresVoid (voidLine list) = true := by
  rw [declaresVoid, trim_voidLine]
  rfl

end Read
end Signature

/-- The list of such a signature is what stands in its parentheses. -/
theorem Parameter.list?_voidLine {list : Text} (h : readBrackets [] list = some []) :
    list? (Signature.voidLine list) = some list := by
  have hopen : list? (Signature.voidLine list) = untilClose 0 (list ++ ')' :: [';']) := rfl
  have happend := untilClose_append h (')' :: [';'])
  rw [hopen]
  simpa [untilClose] using happend

end DocLint
