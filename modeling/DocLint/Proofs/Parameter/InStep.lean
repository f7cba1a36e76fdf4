import DocLint.Proofs.Parameter.Enclosed
import DocLint.Proofs.Parameter.Spelled
import DocLint.Proofs.Signature.Reread

/-!
# Parameters and the spacing of a line

The readers of a parameter list look at blanks only where they stand between two characters of words, and there texts
with the same tokens agree. So parts of lists with the same tokens are read in step (`Parameter.partsFrom_inStep`), and
declare the same parameters but for blanks in the types (`Parameter.ofText?_inStep`). The list of a declaration has the
tokens between its parentheses (`Parameter.exists_list?`), hence a line and its signature have the same parameters
(`Parameter.ofSignature_text`).
-/

namespace DocLint
namespace Parameter

open Text (isBlank isWordChar squeeze trim trimStart)
open Token (InStep isInner leadingRun scan scanFrom)

variable {s t : Text}

/-! ## The parts of a list -/

section Parts

theorem leadingRun_before (s : Text) : leadingRun (Text.before '=' s) = Text.before '=' (leadingRun s) := by
  rw [leadingRun, leadingRun, Text.before, Text.before, List.takeWhile_takeWhile, List.takeWhile_takeWhile]
  simp only [and_comm]

/-- Default values are cut off in step. -/
theorem before_inStep (h : InStep s t) : InStep (Text.before '=' s) (Text.before '=' t) := by
  have hcons : ∀ {c : Char}, c ≠ '=' → ∀ u : Text, Text.before '=' (c :: u) = c :: Text.before '=' u :=
    fun hc u => List.takeWhile_cons_of_pos (by simpa using hc)
  have hblank : ∀ {c : Char}, isBlank c = true → c ≠ '=' := fun hc => ne_of_apply_ne isBlank (by rw [hc]; decide)
  induction h with
  | nil => exact .nil
  | left hc _ ih =>
    rw [hcons (hblank hc)]
    exact .left hc ih
  | right hc _ ih =>
    rw [hcons (hblank hc)]
    exact .right hc ih
  | @both c s t hc hrun _ ih =>
    by_cases heq : c = '='
    · subst heq
      exact .nil
    · rw [hcons heq, hcons heq]
      refine .both hc (fun hinner => ?_) ih
      rw [leadingRun_before, leadingRun_before, hrun hinner]

/-- A character either cuts a list or belongs to the first part of what is left of it. -/
theorem partsFrom_cons_cases (depth : Nat) (c : Char) : (c = ',' ∧ ∀ s, partsFrom depth (c :: s) = [] :: partsFrom 0 s) ∨
    ∃ next, (isBlank c = true → next = depth) ∧ ∀ s, partsFrom depth (c :: s) = Text.consHead c (partsFrom next s) := by
  by_cases hopening : isOpening c = true
  · exact .inr ⟨depth + 1, fun hc => by simp [isOpening_of_isBlank hc] at hopening, fun s => by simp [partsFrom, hopening]⟩
  · by_cases hclosing : isClosing c = true
    · exact .inr ⟨depth - 1, fun hc => by simp [isOpening_of_isBlank hc] at hclosing,
        fun s => by simp [partsFrom, hopening, hclosing]⟩
    · by_cases hcut : c = ',' ∧ depth = 0
      · obtain ⟨rfl, rfl⟩ := hcut
        exact .inl ⟨rfl, fun s => rfl⟩
      · exact .inr ⟨depth, fun _ => rfl, fun s => by simp [partsFrom, hopening, hclosing, hcut]⟩

/-- The first part begins with the same run as the list. -/
theorem exists_partsFrom : ∀ (depth : Nat) (s : Text),
    ∃ head tail, partsFrom depth s = head :: tail ∧ leadingRun head = leadingRun s
  | _, [] => ⟨[], [], rfl, rfl⟩
  | depth, c :: s => by
    rcases partsFrom_cons_cases depth c with ⟨rfl, hcut⟩ | ⟨next, -, hnext⟩
    · exact ⟨[], _, hcut s, (Token.leadingRun_cons_of_not (by decide) s).symm⟩
    · obtain ⟨head, tail, hparts, hrun⟩ := exists_partsFrom next s
      refine ⟨c :: head, tail, by rw [hnext, hparts]; rfl, ?_⟩
      cases hc : isInner c with
      | true => rw [Token.leadingRun_cons_of_isInner hc, Token.leadingRun_cons_of_isInner hc, hrun]
      | false => rw [Token.leadingRun_cons_of_not hc, Token.leadingRun_cons_of_not hc]

/-- **Lists with the same tokens** have parts with the same tokens. -/
theorem partsFrom_inStep (h : InStep s t) : ∀ depth, List.Forall₂ InStep (partsFrom depth s) (partsFrom depth t) := by
  have hblank : ∀ {c : Char}, isBlank c = true → ∀ depth s, partsFrom depth (c :: s) = Text.consHead c (partsFrom depth s) := by
    intro c hc depth s
    rcases partsFrom_cons_cases depth c with ⟨rfl, -⟩ | ⟨next, hsame, hnext⟩
    · cases hc
    · rw [hnext, hsame hc]
  induction h with
  | nil => exact fun _ => .cons .nil .nil
  | @left c s t hc _ ih =>
    intro depth
    obtain ⟨head, tail, hparts, -⟩ := exists_partsFrom depth s
    obtain ⟨head', tail', hhead, htail, hparts'⟩ := List.forall₂_cons_left_iff.1 (hparts ▸ ih depth)
    rw [hblank hc, hparts, hparts']
    exact .cons (.left hc hhead) htail
  | @right c s t hc _ ih =>
    intro depth
    obtain ⟨head, tail, hparts, -⟩ := exists_partsFrom depth t
    obtain ⟨head', tail', hhead, htail, hparts'⟩ := List.forall₂_cons_right_iff.1 (hparts ▸ ih depth)
    rw [hblank hc, hparts, hparts']
    exact .cons (.right hc hhead) htail
  | @both c s t hc hrun _ ih =>
    intro depth
    rcases partsFrom_cons_cases depth c with ⟨-, hcut⟩ | ⟨next, -, hnext⟩
    · rw [hcut, hcut]
      exact .cons .nil (ih 0)
    · obtain ⟨head, tail, hparts, hhead⟩ := exists_partsFrom next s
      obtain ⟨head', tail', hparts', hhead'⟩ := exists_partsFrom next t
      have ih := ih next
      rw [hparts, hparts', List.forall₂_cons] at ih
      rw [hnext, hnext, hparts, hparts']
      exact .cons (.both hc (fun hinner => by rw [hhead, hhead', hrun hinner]) ih.1) ih.2

theorem mem_of_mem_partsFrom {c : Char} : ∀ {s : Text} {depth : Nat} {part : Text}, part ∈ partsFrom depth s → c ∈ part → c ∈ s
  | [], _, _, hpart, hc => by
    rw [List.mem_singleton.1 hpart] at hc
    exact hc
  | d :: s, depth, part, hpart, hc => by
    rcases partsFrom_cons_cases depth d with ⟨-, hcut⟩ | ⟨next, -, hnext⟩
    · rw [hcut] at hpart
      rcases List.mem_cons.1 hpart with rfl | hpart
      · cases hc
      · exact List.mem_cons_of_mem _ (mem_of_mem_partsFrom hpart hc)
    · obtain ⟨head, tail, hparts, -⟩ := exists_partsFrom next s
      have hsub : ∀ part ∈ head :: tail, c ∈ part → c ∈ s := fun part hpart => mem_of_mem_partsFrom (hparts ▸ hpart)
      rw [hnext, hparts] at hpart
      rcases List.mem_cons.1 hpart with rfl | hpart
      · rcases List.mem_cons.1 hc with rfl | hc
        · exact List.mem_cons_self
        · exact List.mem_cons_of_mem _ (hsub head List.mem_cons_self hc)
      · exact List.mem_cons_of_mem _ (hsub part (List.mem_cons_of_mem _ hpart) hc)

end Parts

/-! ## The parameter of a part -/

section Part

/-- The parameter with no blanks in its type. -/
def unspaced (p : Parameter) : Parameter := { p with type := squeeze p.type }

/-- A type, a name and array brackets with no blanks in the type and between the brackets. -/
def unspacedCut (cut : Text × Text × Text) : Text × Text × Text := (squeeze cut.1, cut.2.1, squeeze cut.2.2)

theorem squeeze_append (s t : Text) : squeeze (s ++ t) = squeeze s ++ squeeze t := List.filter_append ..

theorem squeeze_trim (s : Text) : squeeze (trim s) = squeeze s := Token.squeeze_eq_of_scan_eq (Token.scan_trim s)

theorem squeeze_trimStart (s : Text) : squeeze (trimStart s) = squeeze s :=
  Token.squeeze_eq_of_scan_eq (Token.scan_trimStart s)

/-- Blanks in a row of array brackets count for nothing. -/
theorem isDimensions_squeeze : ∀ (inside : Bool) (s : Text), isDimensions inside (squeeze s) = isDimensions inside s
  | inside, [] => rfl
  | inside, c :: s => by
    cases hc : isBlank c with
    | true =>
      have hopen : c ≠ '[' := ne_of_apply_ne isBlank (by rw [hc]; decide)
      have hclose : (c != ']') = true := bne_iff_ne.2 (ne_of_apply_ne isBlank (by rw [hc]; decide))
      have hsqueeze : squeeze (c :: s) = squeeze s := List.filter_cons_of_neg (by simp [hc])
      rw [hsqueeze, isDimensions_squeeze inside s]
      cases inside <;> simp [isDimensions, hopen, hclose, hc]
    | false =>
      have hsqueeze : squeeze (c :: s) = c :: squeeze s := List.filter_cons_of_pos (by simp [hc])
      rw [hsqueeze]
      cases inside <;> simp only [isDimensions, isDimensions_squeeze _ s]

theorem isInner_of_endsType {c : Char} (h : endsType c = true) : isInner c = true := by
  simp only [endsType, Bool.or_eq_true, beq_iff_eq] at h
  rcases h with (((h | rfl) | rfl) | rfl) | rfl
  · exact (plain_of_isWordChar h).1
  all_goals rfl

/-- A type does not end in a mark or in a blank. -/
theorem nameAfter?_of_not_isInner {c : Char} (hc : isInner c = false) (s : Text) : nameAfter? c s = none := by
  have hends : endsType c = false := Bool.eq_false_iff.2 fun h => by simp [isInner_of_endsType h] at hc
  simp only [endsType, Bool.or_eq_false_iff] at hends
  simp only [nameAfter?, hends]
  cases trimStart s <;> simp

/-- The word that a text begins with is a part of its first run. -/
theorem leadingWord_leadingRun (s : Text) : Text.leadingWord (leadingRun s) = Text.leadingWord s := by
  rw [Text.leadingWord, Text.leadingWord, leadingRun, List.takeWhile_takeWhile]
  refine congrArg (List.takeWhile · s) (funext fun c => ?_)
  rw [Bool.eq_iff_iff, decide_eq_true_iff]
  exact and_iff_left_of_imp fun h => (plain_of_isWordChar h).1

/-- Before a character of words there is no blank exactly if the text begins with a run. -/
theorem isEmpty_leadingBlanks {d : Char} {rest : Text} (hs : trimStart s = d :: rest) (hd : isInner d = true) :
    (Text.leadingBlanks s).isEmpty = !(leadingRun s).isEmpty := by
  cases s with
  | nil => cases hs
  | cons c s =>
    cases hc : isBlank c with
    | true => simp [Text.leadingBlanks, leadingRun, isInner, hc]
    | false =>
      have hcd : c = d := by
        rw [trimStart, List.dropWhile_cons_of_neg (by simp [hc])] at hs
        exact (List.cons.inj hs).1
      rw [hcd] at hc ⊢
      simp [Text.leadingBlanks, leadingRun, hc, hd]

/-- Behind the same character, texts that are read in step have the same name and the same brackets. -/
theorem nameAfter?_inStep {c : Char} (hrun : isInner c = true → leadingRun s = leadingRun t) (h : InStep s t) :
    (nameAfter? c s).map unspacedCut = (nameAfter? c t).map unspacedCut := by
  cases hc : isInner c with
  | false => rw [nameAfter?_of_not_isInner hc, nameAfter?_of_not_isInner hc]
  | true =>
    rcases h.trimStart_cases with ⟨hs, ht⟩ | ⟨d, s', t', hs, ht, hd, hrest⟩
    · simp [nameAfter?, hs, ht]
    · by_cases hname : startsName d = true
      · have hinner : isInner d = true := (plain_of_isWordChar (isWordChar_of_startsName hname)).1
        have hblanks : (Text.leadingBlanks s).isEmpty = (Text.leadingBlanks t).isEmpty := by
          rw [isEmpty_leadingBlanks hs hinner, isEmpty_leadingBlanks ht hinner, hrun hc]
        have hword : Text.leadingWord s' = Text.leadingWord t' := by
          rw [← leadingWord_leadingRun, ← leadingWord_leadingRun t', hd hinner]
        have hdrop : squeeze (s'.dropWhile isWordChar) = squeeze (t'.dropWhile isWordChar) := by
          have hsqueeze := hrest.squeeze_eq
          rw [← List.takeWhile_append_dropWhile (p := isWordChar) (l := s'),
            ← List.takeWhile_append_dropWhile (p := isWordChar) (l := t'), squeeze_append, squeeze_append,
            ← Text.leadingWord, ← Text.leadingWord, hword] at hsqueeze
          exact List.append_cancel_left hsqueeze
        have hdimensions : isDimensions false (trimStart (s'.dropWhile isWordChar)) =
            isDimensions false (trimStart (t'.dropWhile isWordChar)) := by
          rw [isDimensions_trimStart, isDimensions_trimStart, ← isDimensions_squeeze, hdrop, isDimensions_squeeze]
        have hnone : ∀ u, squeeze (Text.leadingBlanks u) = [] := fun u =>
          List.filter_eq_nil_iff.2 fun e he => by simp [Text.isBlank_of_mem_leadingBlanks he]
        simp only [nameAfter?, hs, ht, hblanks, hdimensions, hword]
        split <;> simp [unspacedCut, hnone, squeeze_trimStart, hdrop]
      · simp [nameAfter?, hs, ht, hname]

/-- A character that no name comes after belongs to the type. -/
theorem map_cutAtName?_cons {c : Char} (hline : c ≠ '\n') (hnone : nameAfter? c s = none) :
    (cutAtName? (c :: s)).map unspacedCut =
      ((cutAtName? s).map unspacedCut).map fun cut => (squeeze [c] ++ cut.1, cut.2) := by
  cases hcut : cutAtName? s with
  | none => simp [cutAtName?, hnone, hline, hcut]
  | some cut => simpa [cutAtName?, hnone, hline, hcut, unspacedCut] using squeeze_append [c] cut.1

/-- Texts in one line that are read in step are cut before the same name. -/
theorem cutAtName?_inStep (h : InStep s t) (hs : '\n' ∉ s) (ht : '\n' ∉ t) :
    (cutAtName? s).map unspacedCut = (cutAtName? t).map unspacedCut := by
  have hblank : ∀ {c : Char}, isBlank c = true → ∀ u, '\n' ≠ c →
      (cutAtName? (c :: u)).map unspacedCut = (cutAtName? u).map unspacedCut := by
    intro c hc u hline
    have hnone : nameAfter? c u = none := nameAfter?_of_not_isInner (by simp [isInner, hc]) u
    have hsqueeze : squeeze [c] = [] := List.filter_cons_of_neg (by simp [hc])
    rw [map_cutAtName?_cons (Ne.symm hline) hnone, hsqueeze]
    exact Option.map_id'
  induction h with
  | nil => rfl
  | left hc _ ih =>
    rw [List.mem_cons, not_or] at hs
    rw [hblank hc _ hs.1, ih hs.2 ht]
  | right hc _ ih =>
    rw [List.mem_cons, not_or] at ht
    rw [hblank hc _ ht.1, ih hs ht.2]
  | @both c s t hc hrun h ih =>
    rw [List.mem_cons, not_or] at hs ht
    have hname := nameAfter?_inStep hrun h
    cases hfound : nameAfter? c s with
    | none =>
      rw [hfound, Option.map_none, eq_comm, Option.map_eq_none_iff] at hname
      rw [map_cutAtName?_cons (Ne.symm hs.1) hfound, map_cutAtName?_cons (Ne.symm ht.1) hname, ih hs.2 ht.2]
    | some cut =>
      rw [hfound] at hname
      obtain ⟨cut', hfound', hcut⟩ := Option.map_eq_some_iff.1 hname.symm
      simp only [unspacedCut, Prod.mk.injEq] at hcut
      have hsqueeze : squeeze (c :: cut.1) = squeeze (c :: cut'.1) := by
        rw [← List.singleton_append, squeeze_append, ← hcut.1, ← squeeze_append, List.singleton_append]
      simp [cutAtName?, hfound, hfound', unspacedCut, hsqueeze, hcut]

/-- **Parts with the same tokens declare the same parameter,** but for blanks in its type. -/
theorem ofText?_inStep (h : InStep s t) (hs : '\n' ∉ s) (ht : '\n' ∉ t) :
    (ofText? s).map unspaced = (ofText? t).map unspaced := by
  have hline : ∀ {u : Text}, '\n' ∉ u → '\n' ∉ trim (Text.before '=' u) := fun hu hmem =>
    hu ((List.takeWhile_prefix _).subset (Text.mem_of_mem_trim hmem))
  have hread : ∀ u, (ofText? u).map unspaced = ((cutAtName? (trim (Text.before '=' u))).map unspacedCut).map
      fun cut => ⟨cut.1 ++ cut.2.2, cut.2.1⟩ := by
    intro u
    rw [ofText?, Option.map_map, Option.map_map]
    refine congrArg (Option.map · _) (funext fun cut => ?_)
    simp [unspaced, unspacedCut, squeeze_append, squeeze_trim, Token.squeeze_squeeze]
  rw [hread, hread, cutAtName?_inStep (before_inStep h).trim (hline hs) (hline ht)]

theorem ofText?_nil : ofText? [] = none := rfl

/-- Lists with the same tokens declare the same parameters, but for blanks in their types. -/
theorem ofText?_parts_inStep (h : InStep s t) (hs : '\n' ∉ s) (ht : '\n' ∉ t) :
    ((parts s).filterMap ofText?).map unspaced = ((parts t).filterMap ofText?).map unspaced := by
  -- An empty part declares nothing, so it may stay among the parts.
  have hparts : ∀ u, ((parts u).filterMap ofText?).map unspaced =
      (partsFrom 0 u).filterMap fun part => (ofText? (trim part)).map unspaced := by
    intro u
    rw [parts, List.filterMap_filter, List.filterMap_map, List.map_filterMap]
    refine List.filterMap_congr fun part _ => ?_
    by_cases hpart : trim part = []
    · simp [hpart, ofText?_nil]
    · simp [hpart]
  have hline : ∀ {u part : Text}, '\n' ∉ u → part ∈ partsFrom 0 u → '\n' ∉ trim part := fun hu hpart hmem =>
    hu (mem_of_mem_partsFrom hpart (Text.mem_of_mem_trim hmem))
  have hall : ∀ {ps qs : List Text}, List.Forall₂ InStep ps qs → (∀ part ∈ ps, '\n' ∉ trim part) →
      (∀ part ∈ qs, '\n' ∉ trim part) → (ps.filterMap fun part => (ofText? (trim part)).map unspaced) =
        qs.filterMap fun part => (ofText? (trim part)).map unspaced := by
    intro ps qs hinStep hps hqs
    induction hinStep with
    | nil => rfl
    | cons hpart _ ih =>
      obtain ⟨hp, hps⟩ := List.forall_mem_cons.1 hps
      obtain ⟨hq, hqs⟩ := List.forall_mem_cons.1 hqs
      rw [List.filterMap_cons, List.filterMap_cons, ofText?_inStep hpart.trim hp hq, ih hps hqs]
  rw [hparts, hparts]
  exact hall (partsFrom_inStep h 0) (fun _ => hline hs) fun _ => hline ht

end Part

/-! ## The list of a declaration -/

section Lists

open Signature (cutAtClose cutAtOpen Decomposes)

theorem cutAtClose_ofRun_append (run : Text) (depth : Nat) (tokens : List Token) :
    (cutAtClose depth (Token.ofRun run ++ tokens)).map Prod.fst =
      ((cutAtClose depth tokens).map Prod.fst).map (Token.ofRun run ++ ·) := by
  unfold Token.ofRun
  split
  · simp [Function.comp_def]
  · cases depth <;> cases hcut : cutAtClose _ tokens <;> simp [cutAtClose, hcut]

/-- What a mark does to the depth, it does behind a run. -/
theorem cutAtClose_ofRun_mark {depth next : Nat} {mark : Token}
    (h : ∀ tokens, (cutAtClose depth (mark :: tokens)).map Prod.fst =
      ((cutAtClose next tokens).map Prod.fst).map (mark :: ·)) (run : Text) (tokens : List Token) :
    (cutAtClose depth (Token.ofRun run ++ [mark] ++ tokens)).map Prod.fst =
      ((cutAtClose next tokens).map Prod.fst).map (Token.ofRun run ++ [mark] ++ ·) := by
  rw [List.append_assoc, cutAtClose_ofRun_append, List.singleton_append, h, Option.map_map]
  simp [Function.comp_def]

/-- The text and the tokens of a list end with the same parenthesis. -/
theorem cutAtClose_scanFrom : ∀ (s run : Text) (depth : Nat),
    (cutAtClose depth (scanFrom run s)).map Prod.fst = (untilClose depth s).map (scanFrom run)
  | [], run, depth => by
    have hnil : cutAtClose depth [] = none := by cases depth <;> rfl
    have hrun := cutAtClose_ofRun_append run depth []
    rwa [List.append_nil, hnil] at hrun
  | c :: s, run, depth => by
    -- A character that does not end the list stands before what is left of it, as do its tokens.
    have hpass : ∀ (next : Nat) (front : List Token) (run' : Text),
        (∀ u, scanFrom run (c :: u) = front ++ scanFrom run' u) →
        untilClose depth (c :: s) = (untilClose next s).map (c :: ·) →
        (∀ tokens, (cutAtClose depth (front ++ tokens)).map Prod.fst =
          ((cutAtClose next tokens).map Prod.fst).map (front ++ ·)) →
        (cutAtClose depth (scanFrom run (c :: s))).map Prod.fst = (untilClose depth (c :: s)).map (scanFrom run) := by
      intro next front run' hscan hclose hcut
      rw [hscan, hcut, cutAtClose_scanFrom s run' next, hclose, Option.map_map, Option.map_map]
      exact congrArg (Option.map · _) (funext fun u => (hscan u).symm)
    cases hblank : isBlank c with
    | true =>
      have hne : ∀ d, isBlank d = false → c ≠ d := fun d hd => ne_of_apply_ne isBlank (by rw [hblank, hd]; decide)
      exact hpass depth (Token.ofRun run) [] (fun u => by simp [scanFrom, hblank])
        (untilClose_cons (hne '(' rfl) (hne ')' rfl) depth s) (cutAtClose_ofRun_append run depth)
    | false =>
      cases hchar : Token.ofChar? c with
      | none =>
        refine hpass depth [] (run ++ [c]) (fun u => by simp [scanFrom, hblank, hchar]) (untilClose_cons ?_ ?_ depth s)
          fun tokens => ?_
        · rintro rfl
          cases hchar
        · rintro rfl
          cases hchar
        · exact Option.map_id'.symm
      | some mark =>
        have hscan : ∀ u, scanFrom run (c :: u) = Token.ofRun run ++ [mark] ++ scanFrom [] u := fun u => by
          simp [scanFrom, hblank, hchar]
        rcases Token.ofChar?_eq_some hchar with ⟨rfl, rfl⟩ | ⟨rfl, rfl⟩ | ⟨rfl, rfl⟩
        · refine hpass (depth + 1) _ [] hscan rfl (cutAtClose_ofRun_mark (fun tokens => ?_) run)
          cases depth <;> simp [cutAtClose, Function.comp_def]
        · cases depth with
          | zero =>
            have hend := cutAtClose_ofRun_append run 0 (.closeParen :: scanFrom [] s)
            rw [hscan, List.append_assoc, List.singleton_append, hend]
            simp [cutAtClose, untilClose, scanFrom]
          | succ depth =>
            refine hpass depth _ [] hscan rfl (cutAtClose_ofRun_mark (fun tokens => ?_) run)
            simp [cutAtClose, Function.comp_def]
        · refine hpass depth _ [] hscan rfl (cutAtClose_ofRun_mark (fun tokens => ?_) run)
          cases depth <;> simp [cutAtClose, Function.comp_def]

/-- **The list of a declaration** has the tokens between its parentheses. -/
theorem exists_list? {line : Text} {lead list after : List Token} {name : Text}
    (h : Decomposes (scan line) lead name list after) (hopen : Token.openParen ∉ lead) :
    ∃ text, list? line = some text ∧ scan text = list := by
  have hno : Token.openParen ∉ lead ++ [.word name] := by simpa using hopen
  have htokens : scan line = (lead ++ [.word name]) ++ .openParen :: (list ++ .closeParen :: after) := by
    rw [h.tokens_eq]
    simp
  obtain ⟨front, rest, rfl, hfront⟩ : ∃ front rest, line = front ++ '(' :: rest ∧ '(' ∉ front :=
    List.eq_append_cons_of_mem (Token.mem_of_openParen_mem_scan (htokens ▸ by simp))
  have hcut : cutAtOpen (scan (front ++ '(' :: rest)) = some (scan front, scan rest) :=
    Signature.cutAtOpen_eq_some_iff.2
      ⟨Token.scan_openParen _ _, fun hmem => hfront (Token.mem_of_openParen_mem_scan hmem)⟩
  rw [Signature.cutAtOpen_eq_some_iff.2 ⟨htokens, hno⟩, Option.some.injEq, Prod.mk.injEq] at hcut
  have hclose := cutAtClose_scanFrom rest [] 0
  rw [← scan, ← hcut.2, Signature.cutAtClose_eq_some_iff.2 ⟨rfl, h.balanced⟩, Option.map_some, eq_comm,
    Option.map_eq_some_iff] at hclose
  rwa [list?_append hfront]

theorem mem_of_list? {c : Char} {s text : Text} (h : list? s = some text) (hc : c ∈ text) : c ∈ s := by
  obtain ⟨front, behind, hencloses⟩ := exists_encloses h
  rw [hencloses.text_eq]
  exact List.mem_append_right _ (List.mem_cons_of_mem _ (List.mem_append_left _ hc))

end Lists

/-! ## A line and its signature -/

section Reconstructed

/-- **A signature has the parameters of its line.** -/
theorem ofSignature_text {line : Text} {s : Signature} (hline : '\n' ∉ line) (hopen : (trim line).head? ≠ some '(')
    (h : Signature.ofLine? line = some s) :
    (∃ list list', list? line = some list ∧ list? s.text = some list' ∧ squeeze list = squeeze list') ∧
    (ofSignature line).map unspaced = (ofSignature s.text).map unspaced := by
  obtain ⟨-, lead, tokens, after, hparts, hmade⟩ := Signature.isMadeOf_of_ofLine? h
  have hlead : Token.openParen ∉ lead := Signature.openParen_not_mem_lead hparts hopen
  have hscan : scan line = scan (trim line) := (Token.scan_trim line).symm
  obtain ⟨list, hlist, htokens⟩ := exists_list? (hscan ▸ hparts) hlead
  obtain ⟨list', hlist', htokens'⟩ := exists_list? (hmade.decomposes hparts) hlead
  have hinStep : InStep list list' := Token.inStep_iff.2 (htokens.trans htokens'.symm)
  refine ⟨⟨list, list', hlist, hlist', hinStep.squeeze_eq⟩, ?_⟩
  rw [ofSignature, ofSignature, hlist, hlist']
  exact ofText?_parts_inStep hinStep (fun hmem => hline (mem_of_list? hlist hmem))
    fun hmem => hmade.lineFeed_not_mem_text (mem_of_list? hlist' hmem)

/-- A line whose list is spaced in another way than its signature: blanks around the parentheses and commas of a callback
and inside of array brackets. -/
theorem ofSignature_text_callback :
    let line := "int map (f<int ,void( int )>  g ,char * s [ 2 ]) ;".toList
    '\n' ∉ line ∧ (trim line).head? ≠ some '(' ∧ ∃ s, Signature.ofLine? line = some s ∧
      s.text = "int map(f<int, void(int) > g, char * s [ 2 ]);".toList ∧
      (∃ list list', list? line = some list ∧ list? s.text = some list' ∧ squeeze list = squeeze list') ∧
      (ofSignature line).map unspaced = (ofSignature s.text).map unspaced := by
  intro line
  have hline : '\n' ∉ line := by decide +kernel
  have hopen : (trim line).head? ≠ some '(' := by decide +kernel
  have h : Signature.ofLine? line =
      some ⟨"int".toList, "map".toList, .method, "int map(f<int, void(int) > g, char * s [ 2 ]);".toList⟩ := by
    decide +kernel
  exact ⟨hline, hopen, _, h, rfl, ofSignature_text hline hopen h⟩

end Reconstructed
end Parameter
end DocLint
