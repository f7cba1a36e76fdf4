import Mathlib.Data.List.Infix
import DocLint.Proofs.Method.Documented
import DocLint.Proofs.Method.OneLine
import DocLint.Proofs.Signature.OpenList

/-!
# Wrapped declarations

* Blanks around lines count for nothing (`Method.ofLines_map_trim`).
* The lines that a declaration is read off are joined. When a parameter list is cut into several lines, the joined lines
  have the tokens of the whole line, so that they declare the same (`Candidate.ofLines?_pieces`).
* Hence breaking a parameter list over lines only moves what follows further down (`Method.ofLines_wrapped`).
-/

namespace DocLint

open Text (trim trimStart trimEnd)
open Signature (parenSurplus)

/-! ## Blanks around lines -/

section Trimmed

namespace Candidate

theorem extend?_map_trim : ∀ (more : Nat) (joined : Text) (size : Nat) (lines : List Text),
    extend? more joined size (lines.map trim) = extend? more joined size lines
  | 0, _, _, _ => by simp only [extend?]
  | _ + 1, _, _, [] => rfl
  | more + 1, joined, size, line :: rest => by
    simp only [List.map_cons, extend?, Text.trim_trim]
    rw [extend?_map_trim more _ (size + 1) rest]

theorem ofLines?_map_trim (lines : List Text) : ofLines? (lines.map trim) = ofLines? lines := by
  cases lines with
  | nil => rfl
  | cons line rest => simp only [List.map_cons, ofLines?, Text.trim_trim, extend?_map_trim]

end Candidate

namespace ScanState

theorem step_map_trim (state : ScanState) (number : Nat) (line : Text) (rest : List Text) :
    step state number (trim line) (rest.map trim) = step state number line rest := by
  have hfound := Candidate.ofLines?_map_trim (line :: rest)
  rw [List.map_cons] at hfound
  cases state <;> simp only [step, Text.trim_trim, hfound]

theorem scan_map_trim : ∀ (skip : Nat) (state : ScanState) (number : Nat) (lines : List Text),
    scan skip state number (lines.map trim) = scan skip state number lines
  | 0, _, _, [] | _ + 1, _, _, [] => rfl
  | skip + 1, state, number, _ :: rest => scan_map_trim skip state (number + 1) rest
  | 0, state, number, line :: rest => by
    simp only [List.map_cons, scan, step_map_trim]
    rw [scan_map_trim _ _ (number + 1) rest]

end ScanState

/-- The methods of a file do not depend on the blanks around its lines. -/
theorem Method.ofLines_map_trim (lines : List Text) : ofLines (lines.map trim) = ofLines lines :=
  ScanState.scan_map_trim 0 (.free none) 1 lines

end Trimmed

/-! ## Joined lines -/

namespace Candidate

/-- A text with the lines after it, as an open declaration takes them. -/
def joined (first : Text) (lines : List Text) : Text := first ++ lines.flatMap (' ' :: trim ·)

theorem joined_cons (first line : Text) (lines : List Text) :
    joined first (line :: lines) = joined (first ++ ' ' :: trim line) lines := by
  simp [joined]

/-- Joining adds blanks only. -/
theorem count_joined {c : Char} (hc : Text.isBlank c = false) (first : Text) : ∀ lines : List Text,
    (joined first lines).count c = (first ++ lines.flatten).count c := by
  intro lines
  have hspace : (' ' == c) = false := beq_eq_false_iff_ne.2 fun heq => by
    rw [← heq] at hc
    cases hc
  induction lines generalizing first with
  | nil => simp [joined]
  | cons line lines ih =>
    rw [joined_cons, ih]
    simp [List.count_cons, hspace, Text.count_trim hc]

theorem parenSurplus_joined (first : Text) (lines : List Text) :
    parenSurplus (joined first lines) = parenSurplus (first ++ lines.flatten) := by
  rw [parenSurplus, parenSurplus, count_joined rfl, count_joined rfl]

/-- Joined lines have the tokens of the lines. -/
theorem scan_joined (first : Text) (lines : List Text) :
    Token.scan (joined first lines) = Token.scan first ++ lines.flatMap Token.scan := by
  induction lines generalizing first with
  | nil => simp [joined]
  | cons line lines ih =>
    rw [joined_cons, ih, Token.scan_append_blank rfl, Token.scan_trim, List.flatMap_cons, List.append_assoc]

/-- An open declaration takes the lines up to the first one that closes its parentheses. -/
theorem extend?_joined {last : Text} {rest : List Text} : ∀ {mids : List Text} {more : Nat} {first : Text} {size : Nat},
    mids.length < more →
    (∀ above, above <+: mids → 0 < parenSurplus (first ++ above.flatten)) →
    parenSurplus (first ++ (mids ++ [last]).flatten) ≤ 0 →
    extend? more first size (mids ++ last :: rest) = (Signature.ofLine? (joined first (mids ++ [last]))).map
      fun signature => ⟨signature, joined first (mids ++ [last]), size + mids.length + 1⟩ := by
  intro mids
  induction mids with
  | nil =>
    intro more first size hmore _ hlast
    obtain ⟨more, rfl⟩ := Nat.exists_eq_add_one_of_ne_zero (Nat.ne_of_gt hmore)
    have hjoined : first ++ ' ' :: trim last = joined first [last] := by simp [joined]
    rw [List.nil_append, ← parenSurplus_joined] at hlast
    rw [List.nil_append, List.nil_append, extend?, hjoined, if_pos hlast]
    rfl
  | cons mid mids ih =>
    intro more first size hmore hopen hlast
    obtain ⟨more, rfl⟩ := Nat.exists_eq_add_one_of_ne_zero (Nat.ne_of_gt (Nat.zero_lt_of_lt hmore))
    have hnext : ∀ lines : List Text, parenSurplus (first ++ ' ' :: trim mid ++ lines.flatten) =
        parenSurplus (first ++ (mid :: lines).flatten) := by
      intro lines
      rw [← parenSurplus_joined, ← parenSurplus_joined, joined_cons]
    have hmid : ¬ parenSurplus (first ++ ' ' :: trim mid) ≤ 0 := by
      have hone := hopen [mid] ((List.prefix_cons_inj mid).2 List.nil_prefix)
      rw [← hnext [], List.flatten_nil, List.append_nil] at hone
      omega
    rw [List.cons_append, extend?, if_neg hmid, ih (by simpa using hmore), List.cons_append, joined_cons]
    · simp only [List.length_cons]
      refine congrArg (Option.map · _) (funext fun signature => ?_)
      rw [Nat.add_assoc size, Nat.add_comm 1]
    · intro above habove
      rw [hnext]
      exact hopen (mid :: above) ((List.prefix_cons_inj mid).2 habove)
    · rw [hnext]
      exact hlast

end Candidate

/-! ## Lines that are cut in their list -/

namespace Signature

/-- The line declares `name` with the text `inside` in the parentheses of its list. -/
structure ListParts (line name front inside back : Text) : Prop where
  whole : line = front ++ '(' :: (inside ++ ')' :: back)
  /-- The name is the last token before the list, and no parenthesis stands before the list. -/
  named : ∃ lead, Token.scan front = lead ++ [.word name]
  not_open : '(' ∉ front
  not_close : ')' ∉ front
  /-- The second of the parentheses closes the first one. -/
  nested : ∀ s, s <+: inside → 0 ≤ parenSurplus s
  closed : parenSurplus inside = 0

/-- The pieces are the line, cut within the parentheses of its list and not within a token. -/
structure CutInList (line front back : Text) (pieces : List Text) : Prop where
  whole : pieces.flatten = line
  tokens : pieces.flatMap Token.scan = Token.scan line
  opening : ∀ piece ∈ pieces.head?, front ++ ['('] <+: piece
  closing : ∀ piece ∈ pieces.getLast?, ')' :: back <:+ piece

variable {line name front inside back : Text} {pieces : List Text}

/-- What stands before the list ends in the first piece, and what stands behind it begins in the last one. -/
theorem CutInList.exists_eq (h : CutInList line front back pieces) (hparts : ListParts line name front inside back)
    (hcut : 2 ≤ pieces.length) : ∃ first mids last,
      pieces = (front ++ '(' :: first) :: (mids ++ [last ++ ')' :: back]) ∧
        inside = first ++ (mids.flatten ++ last) := by
  obtain ⟨head, rest, rfl⟩ := List.exists_cons_of_length_pos (Nat.lt_of_lt_of_le Nat.zero_lt_two hcut)
  obtain ⟨mids, tail, rfl⟩ := (List.eq_nil_or_concat' rest).resolve_left (by rintro rfl; simp at hcut)
  obtain ⟨first, rfl⟩ := h.opening head rfl
  obtain ⟨last, rfl⟩ := h.closing tail (by rw [← List.cons_append, List.getLast?_concat]; rfl)
  have hwhole := h.whole.trans hparts.whole
  refine ⟨first, mids, last, by simp, ?_⟩
  simp only [List.flatten_cons, List.flatten_append, List.flatten_nil, List.append_nil, List.append_assoc,
    List.singleton_append] at hwhole
  have hinside := List.cons.inj (List.append_cancel_left hwhole)
  have hback : first ++ (mids.flatten ++ last) ++ ')' :: back = inside ++ ')' :: back := by
    rw [List.append_assoc, List.append_assoc]
    exact hinside.2
  exact (List.append_cancel_right hback).symm

namespace ListParts

variable (h : ListParts line name front inside back)
include h

/-- The line is open up to any point within its list. -/
theorem parenSurplus_pos {s : Text} (hs : s <+: inside) : 0 < parenSurplus (front ++ '(' :: s) := by
  have hopen : parenSurplus ['('] = 1 := rfl
  have hnested := h.nested s hs
  rw [parenSurplus_append, parenSurplus_cons, parenSurplus_of_not_mem h.not_open h.not_close, hopen]
  omega

/-- The line up to there is no declaration by itself. -/
theorem ofLine?_front {s : Text} (hs : s <+: inside) : ofLine? (front ++ '(' :: s) = none := by
  obtain ⟨lead, hscan⟩ := h.named
  exact ofLine?_open hscan h.not_open fun t ht => h.nested t (ht.trans hs)

/-- It begins one if the whole line is one. -/
theorem beginsDeclaration_front {signature : Signature} (hsignature : ofLine? line = some signature) {s : Text}
    (hs : s <+: inside) : beginsDeclaration (front ++ '(' :: s) = true := by
  obtain ⟨lead, hscan⟩ := h.named
  rw [h.whole] at hsignature
  exact beginsDeclaration_open hscan h.not_open hsignature (h.parenSurplus_pos hs)

theorem trimStart_ne_nil : trimStart front ≠ [] := by
  obtain ⟨lead, hscan⟩ := h.named
  exact trimStart_ne_nil_of_scan hscan

theorem trim_eq : trim line = trimStart front ++ '(' :: (inside ++ ')' :: trimEnd back) := by
  rw [h.whole, Text.trim_append rfl, Text.trimEnd_append rfl]

/-- What stands within the list matters by its tokens only. -/
theorem ofLine?_eq {list : Text} (hscan : Token.scan (trimStart front ++ '(' :: (list ++ ')' :: trimEnd back)) =
    Token.scan line) : ofLine? (trimStart front ++ '(' :: (list ++ ')' :: trimEnd back)) = ofLine? line := by
  have hne : trimStart (trimStart front) ≠ [] := by
    rw [trimStart, trimStart, List.dropWhile_idempotent]
    exact h.trimStart_ne_nil
  rw [← Token.scan_trim line, h.trim_eq] at hscan
  rw [← ofLine?_trim line, h.trim_eq]
  exact ofLine?_list_congr hne hscan

end ListParts
end Signature

namespace Candidate

variable {line front inside back : Text} {signature : Signature} {pieces : List Text}

/-- The joined pieces, with what stands between the parentheses of the list. -/
theorem joined_pieces (front first : Text) (mids : List Text) (last back : Text) :
    ∃ list, joined (trim (front ++ '(' :: first)) (mids ++ [last ++ ')' :: back]) =
      trimStart front ++ '(' :: (list ++ ')' :: trimEnd back) := by
  refine ⟨trimEnd first ++ (mids.flatMap (' ' :: trim ·) ++ ' ' :: trimStart last), ?_⟩
  have hfirst : trim (front ++ '(' :: first) = trimStart front ++ '(' :: trimEnd first := Text.trim_append rfl _ _
  have hlast : trim (last ++ ')' :: back) = trimStart last ++ ')' :: trimEnd back := Text.trim_append rfl _ _
  simp [joined, hfirst, hlast]

open Signature in
/-- **A declaration is read off the pieces** of a line as it is read off the line. -/
theorem ofLines?_pieces (hsignature : ofLine? line = some signature) (hbalanced : parenSurplus line = 0)
    (hparts : ListParts line signature.name front inside back) (hcut : CutInList line front back pieces)
    (htwo : 2 ≤ pieces.length) (hfew : pieces.length ≤ maxContinuation + 1) (below : List Text) :
    ∃ text, ofLines? (pieces ++ below) = some ⟨signature, text, pieces.length⟩ ∧
      text.getLast? = (trim line).getLast? ∧
      ∀ c, Text.isBlank c = false → text.count c = (trim line).count c := by
  obtain ⟨first, mids, last, rfl, rfl⟩ := hcut.exists_eq hparts htwo
  have hflatten : front ++ '(' :: first ++ (mids ++ [last ++ ')' :: back]).flatten = line := hcut.whole
  have hnone : ofLine? (trim (front ++ '(' :: first)) = none := by
    rw [ofLine?_trim, hparts.ofLine?_front (List.prefix_append _ _)]
  have hbegins : beginsDeclaration (trim (front ++ '(' :: first)) = true := by
    rw [beginsDeclaration_trim, hparts.beginsDeclaration_front hsignature (List.prefix_append _ _)]
  have hsurplus : ∀ lines : List Text, parenSurplus (trim (front ++ '(' :: first) ++ lines.flatten) =
      parenSurplus (front ++ '(' :: (first ++ lines.flatten)) := by
    intro lines
    rw [parenSurplus_append, parenSurplus_trim, ← parenSurplus_append, List.append_assoc, List.cons_append]
  -- The list stays open up to the last piece.
  have hopen : ∀ above, above <+: mids → 0 < parenSurplus (trim (front ++ '(' :: first) ++ above.flatten) := by
    rintro above ⟨rest, rfl⟩
    rw [hsurplus]
    refine hparts.parenSurplus_pos ((List.prefix_append_right_inj first).2 ?_)
    rw [List.flatten_append, List.append_assoc]
    exact List.prefix_append _ _
  have hclosed : parenSurplus (trim (front ++ '(' :: first) ++ (mids ++ [last ++ ')' :: back]).flatten) ≤ 0 := by
    rw [hsurplus, ← List.cons_append, ← List.append_assoc, hflatten]
    exact Int.le_of_eq hbalanced
  obtain ⟨list, hjoined⟩ := joined_pieces front first mids last back
  have hread : ofLine? (joined (trim (front ++ '(' :: first)) (mids ++ [last ++ ')' :: back])) = some signature := by
    rw [← hsignature, hjoined]
    refine hparts.ofLine?_eq ?_
    rw [← hjoined, scan_joined, Token.scan_trim]
    exact hcut.tokens
  refine ⟨joined (trim (front ++ '(' :: first)) (mids ++ [last ++ ')' :: back]), ?_, ?_, fun c hc => ?_⟩
  · have hmids : mids.length < maxContinuation := by
      simp only [List.length_cons, List.length_append, List.length_nil] at hfew
      omega
    have hextend := @extend?_joined (last ++ ')' :: back) below mids maxContinuation _ 1 hmids hopen hclosed
    rw [hread] at hextend
    simp only [List.cons_append, List.append_assoc, List.nil_append, ofLines?, hnone, hbegins, if_true, hextend,
      Option.map_some, List.length_cons, List.length_append, List.length_nil]
    rw [Nat.add_comm 1]
  · rw [hjoined, hparts.trim_eq]
    simp [List.getLast?_append, List.getLast?_cons]
  · rw [count_joined hc, List.count_append, Text.count_trim hc, Text.count_trim hc, ← List.count_append, hflatten]

end Candidate

/-! ## Methods that take more lines -/

/-- The method when it ends some lines further down. -/
def Method.lengthen (lines : Nat) (m : Method) : Method :=
  { m with declaration := { m.declaration with endLine := m.declaration.endLine + lines } }

/-- The methods when the first of them takes more lines: it ends further down, and the others lie further down. -/
def Method.drawOut (lines : Nat) : List Method → List Method
  | [] => []
  | m :: rest => m.lengthen lines :: rest.map (·.shift lines)

namespace ScanState

open Method (drawOut)

/-- What a text does to a method depends on its braces and its last character. -/
theorem readMethod_congr {text text' : Text} (hopen : text.count '{' = text'.count '{')
    (hclose : text.count '}' = text'.count '}') (hlast : text.getLast? = text'.getLast?) (method : UnclosedMethod)
    (number : Nat) : readMethod method number text = readMethod method number text' := by
  have hread : method.read text = method.read text' := UnclosedMethod.read_congr hopen hclose method
  have hends : (method.read text').endsAt text = (method.read text').endsAt text' := by
    rw [UnclosedMethod.endsAt, UnclosedMethod.endsAt, hlast]
  rw [readMethod, readMethod, hread, hends]

/-- The methods `drawn` are the methods `plain` when the first of them, which begins in the line `start`, takes `k` more
lines. -/
structure DrawnOut (k : Nat) (signature : Signature) (start : Nat) (plain drawn : List Method) : Prop where
  eq : drawn = drawOut k plain
  first : ∀ m ∈ plain.head?, m.declaration.startLine = start ∧ m.declaration.signature = signature

variable {k : Nat} {lines : List Text}

/-- A text that ends `k` lines further down ends its method there or leaves it open. -/
theorem drawnOut_readMethod (method : UnclosedMethod) (number : Nat) (text : Text)
    (h : ∀ method number, DrawnOut k method.signature method.startLine (scan 0 (.inMethod method) number lines)
      (scan 0 (.inMethod method) (number + k) lines)) :
    DrawnOut k method.signature method.startLine
      ((readMethod method number text).2.toList ++ scan 0 (readMethod method number text).1 (number + 1) lines)
      ((readMethod method (number + k) text).2.toList ++
        scan 0 (readMethod method (number + k) text).1 (number + 1 + k) lines) := by
  have hstart : (method.read text).startLine = method.startLine := (method.read_places text).1
  have hsignature : (method.read text).signature = method.signature := by rw [method.read_eq]
  simp only [readMethod]
  split
  · refine ⟨congrArg _ (scan_shift k 0 (.free none) (number + 1) lines), fun m hm => ?_⟩
    cases hm
    exact ⟨hstart, hsignature⟩
  · rw [← hstart, ← hsignature]
    exact h (method.read text) (number + 1)

/-- An unclosed method ends further down when its lines lie further down. -/
theorem drawnOut_inMethod (k : Nat) (lines : List Text) : ∀ (method : UnclosedMethod) (number : Nat),
    DrawnOut k method.signature method.startLine (scan 0 (.inMethod method) number lines)
      (scan 0 (.inMethod method) (number + k) lines) := by
  induction lines with
  | nil => exact fun _ _ => ⟨rfl, fun m hm => (by cases hm)⟩
  | cons line lines ih =>
    intro method number
    simp only [scan, step]
    rw [Nat.add_right_comm]
    exact drawnOut_readMethod method number (trim line) ih

/-- **A declaration that is read off more lines** ends further down. -/
theorem drawnOut_free {line first : Text} {more below : List Text} {signature : Signature} {text : Text}
    (hopens : DocComment.opens line = false) (hopens' : DocComment.opens first = false)
    (hfound : Candidate.ofLines? (line :: below) = some ⟨signature, trim line, 1⟩)
    (hfound' : Candidate.ofLines? (first :: (more ++ below)) = some ⟨signature, text, more.length + 1⟩)
    (hread : ∀ method number, readMethod method number text = readMethod method number (trim line))
    (pending : Option DocComment) (number : Nat) :
    DrawnOut more.length signature number (scan 0 (.free pending) number (line :: below))
      (scan 0 (.free pending) number (first :: (more ++ below))) := by
  have hlast : number + (more.length + 1) - 1 = number + more.length := by omega
  simp only [scan, step, DocComment.opens_trim, hopens, hopens', Bool.false_eq_true, if_false, hfound, hfound', hread,
    hlast, Nat.add_sub_cancel]
  rw [scan_length_append]
  exact drawnOut_readMethod ⟨signature, pending, number, 0, false⟩ number (trim line) (drawnOut_inMethod _ below)

end ScanState

/-! ## Parameter lists over several lines -/

/-- A remark is no declaration, and so is a line that begins a comment. -/
theorem Signature.opens_eq_false {line : Text} (h : isRemark (trim line) = false) : DocComment.opens line = false := by
  by_contra hopens
  rw [Bool.not_eq_false, DocComment.opens, List.isPrefixOf_iff_prefix] at hopens
  obtain ⟨rest, hrest⟩ := hopens
  rw [← hrest] at h
  simp [isRemark, DocComment.openMark] at h

namespace Method

open Signature (ListParts CutInList ofLine?)

variable {line front inside back : Text} {signature : Signature} {pieces : List Text}

theorem drawnOut_pieces (hsignature : ofLine? line = some signature) (hbalanced : parenSurplus line = 0)
    (hparts : ListParts line signature.name front inside back) (hcut : CutInList line front back pieces)
    (htwo : 2 ≤ pieces.length) (hfew : pieces.length ≤ Candidate.maxContinuation + 1) (below : List Text)
    (pending : Option DocComment) (number : Nat) :
    ScanState.DrawnOut (pieces.length - 1) signature number
      (ScanState.scan 0 (.free pending) number (line :: below))
      (ScanState.scan 0 (.free pending) number (pieces ++ below)) := by
  obtain ⟨text, hfound, hlast, hcount⟩ := Candidate.ofLines?_pieces hsignature hbalanced hparts hcut htwo hfew below
  have hone : Candidate.ofLines? (line :: below) = some ⟨signature, trim line, 1⟩ := by
    simp only [Candidate.ofLines?, Signature.ofLine?_trim, hsignature]
  have hremark := (Signature.of_ofLine?_eq_some hsignature).1
  obtain ⟨first, mids, last, rfl, -⟩ := hcut.exists_eq hparts htwo
  have hremark' : Signature.isRemark (trim (front ++ '(' :: first)) = false := by
    rw [← hremark, hparts.whole]
    exact Signature.isRemark_trim_congr hparts.trimStart_ne_nil _ _
  exact ScanState.drawnOut_free (Signature.opens_eq_false hremark) (Signature.opens_eq_false hremark') hone hfound
    (ScanState.readMethod_congr (hcount '{' rfl) (hcount '}' rfl) hlast) pending number

/-- **Breaking a parameter list over lines changes nothing.** A line that declares a method, behind nothing or behind a
comment, may be cut within its list into up to nine lines, with any blanks around them: the methods are the same, the
first one `k` lines longer and the others `k` lines further down. -/
theorem ofLines_wrapped {comment lines : List Text} {k : Nat} (hsignature : ofLine? line = some signature)
    (hbalanced : parenSurplus line = 0) (hparts : ListParts line signature.name front inside back)
    (hcut : CutInList line front back pieces) (hk : pieces.length = k + 1) (hone : 1 ≤ k)
    (hfew : k ≤ Candidate.maxContinuation) (hblanks : lines.map trim = pieces.map trim)
    (hcomment : comment = [] ∨
      (∀ first ∈ comment.head?, DocComment.opens first = true) ∧ DocComment.IsClosed comment)
    (below : List Text) :
    ofLines (comment ++ (lines ++ below)) = drawOut k (ofLines (comment ++ line :: below)) ∧
      ∀ m ∈ (ofLines (comment ++ line :: below)).head?,
        m.declaration.startLine = comment.length + 1 ∧ m.declaration.signature = signature := by
  have hwrapped := drawnOut_pieces hsignature hbalanced hparts hcut (by omega) (by omega) below
  rw [hk, Nat.add_sub_cancel] at hwrapped
  have hlines : ofLines (comment ++ (lines ++ below)) = ofLines (comment ++ (pieces ++ below)) := by
    rw [← ofLines_map_trim, ← ofLines_map_trim (comment ++ (pieces ++ below))]
    simp only [List.map_append, hblanks]
  rw [hlines]
  rcases hcomment with rfl | ⟨hopens, hclosed⟩
  · exact ⟨(hwrapped none 1).eq, (hwrapped none 1).first⟩
  · rw [ofLines, ofLines, ScanState.scan_comment hopens hclosed, ScanState.scan_comment hopens hclosed,
      Nat.add_comm comment.length]
    exact ⟨(hwrapped _ _).eq, (hwrapped _ _).first⟩

/-- A list that is cut in a type with parentheses and behind it, below a comment and above a body. -/
theorem ofLines_wrapped_callback :
    let whole := ["/** Runs. */".toList, "int f(G<int()> g, H h) \x7b".toList, "\x7d".toList, "int k();".toList]
    ofLines ["/** Runs. */".toList, "int f(G<int(".toList, "  )> g,".toList, "  H h) \x7b".toList, "\x7d".toList,
        "int k();".toList] = drawOut 2 (ofLines whole) ∧
      (ofLines whole).length = 2 ∧
      ∀ m ∈ (ofLines whole).head?, m.declaration.startLine = 2 ∧ m.declaration.signature =
        ⟨"int".toList, "f".toList, .method, "int f(G<int() > g, H h)".toList⟩ := by
  intro whole
  have hsignature : ofLine? "int f(G<int()> g, H h) \x7b".toList = some
      ⟨"int".toList, "f".toList, .method, "int f(G<int() > g, H h)".toList⟩ := by decide +kernel
  have hbalanced : parenSurplus "int f(G<int()> g, H h) \x7b".toList = 0 := by decide +kernel
  have hnested : ∀ s ∈ "G<int()> g, H h".toList.inits, 0 ≤ parenSurplus s := by decide +kernel
  have hparts : ListParts "int f(G<int()> g, H h) \x7b".toList "f".toList "int f".toList "G<int()> g, H h".toList
      " \x7b".toList :=
    ⟨by decide +kernel, ⟨[.word "int".toList], by decide +kernel⟩, by decide +kernel, by decide +kernel,
      fun s hs => hnested s ((List.mem_inits _ _).2 hs), by decide +kernel⟩
  have hcut : CutInList "int f(G<int()> g, H h) \x7b".toList "int f".toList " \x7b".toList
      ["int f(G<int(".toList, ")> g,".toList, " H h) \x7b".toList] :=
    ⟨by decide +kernel, by decide +kernel, by decide +kernel, by decide +kernel⟩
  have hblanks : ["int f(G<int(".toList, "  )> g,".toList, "  H h) \x7b".toList].map trim =
      ["int f(G<int(".toList, ")> g,".toList, " H h) \x7b".toList].map trim := by decide +kernel
  have hopens : ∀ first ∈ ["/** Runs. */".toList].head?, DocComment.opens first = true := by decide +kernel
  have hclosed : DocComment.IsClosed ["/** Runs. */".toList] := DocComment.isClosed_singleton.2 (by decide +kernel)
  obtain ⟨hwrapped, hfirst⟩ := ofLines_wrapped hsignature hbalanced hparts hcut rfl (by decide) (by decide) hblanks
    (.inr ⟨hopens, hclosed⟩) ["\x7d".toList, "int k();".toList]
  exact ⟨hwrapped, by decide +kernel, hfirst⟩

end Method
end DocLint
