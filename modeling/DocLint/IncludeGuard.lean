import DocLint.Text.Class
import DocLint.Finding

/-!
# Include guards

A header file is guarded by a line `#pragma once` anywhere, perhaps with a comment behind it, or by its first two
directives being `#ifndef X` and `#define X` with the same word `X`.
-/

namespace DocLint
namespace IncludeGuard

/-- The text of a directive behind its name: a line that begins with `#`, blanks, and `name`. -/
def directive? (name line : Text) : Option Text :=
  match line with
  | '#' :: rest => name.isPrefixOf? (Text.trimStart rest)
  | _ => none

/-- The word behind the blanks that a text begins with, and the text after it; at least one blank is needed. -/
def wordBehind? (s : Text) : Option (Text × Text) :=
  let rest := Text.trimStart s
  let word := Text.leadingWord rest
  if (Text.leadingBlanks s).isEmpty || word.isEmpty then none else some (word, rest.dropWhile Text.isWordChar)

/-- The text is blank but for a comment of one line. -/
def isRemark (s : Text) : Bool :=
  match Text.trimStart s with
  | [] => true
  | '/' :: '/' :: comment => !comment.contains '\n'
  | _ => false

/-- The trimmed line is `#pragma once`. -/
def isPragmaOnce (line : Text) : Bool :=
  match directive? "pragma".toList line with
  | none => false
  | some rest =>
    !(Text.leadingBlanks rest).isEmpty &&
      match "once".toList.isPrefixOf? (Text.trimStart rest) with
      | some behind => isRemark behind
      | none => false

/-- The word that the trimmed line asks to be undefined. -/
def ifndef? (line : Text) : Option Text := ((directive? "ifndef".toList line).bind wordBehind?).map (·.1)

/-- The word that the trimmed line defines as empty. -/
def define? (line : Text) : Option Text :=
  match (directive? "define".toList line).bind wordBehind? with
  | some (word, after) => if (Text.trimStart after).isEmpty then some word else none
  | none => none

/-- The first two directives of the trimmed lines are `#ifndef X` and `#define X`. -/
def isClassic (lines : List Text) : Bool :=
  match lines.filter ("#".toList.isPrefixOf ·) with
  | first :: second :: _ =>
    match ifndef? first, define? second with
    | some asked, some defined => asked == defined
    | _, _ => false
  | _ => false

/-- The lines have an include guard. -/
def isGuarded (lines : List Text) : Bool :=
  let stripped := lines.map Text.trim
  stripped.any isPragmaOnce || isClassic stripped

/-- The finding of a header file without include guard. -/
def findings (path : Path) (lines : List Text) : List Finding :=
  if isGuarded lines then [] else [Finding.ofProblem path 1 .noGuard]

end IncludeGuard
end DocLint
