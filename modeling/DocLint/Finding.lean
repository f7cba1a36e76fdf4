import DocLint.Path

/-!
# Findings

A finding is a problem at a line of a file. The problems are listed by cause, and `Problem.message` has the wording
of each of them.
-/

namespace DocLint

/-- What the checks can find wrong with a file. -/
inductive Problem
  /-- No documentation comment in the whole file. -/
  | noHeader
  /-- A legacy file tag names another file than `expected`. -/
  | wrongFileName (expected : Text)
  /-- The header has no file tag with the name `expected`. -/
  | noFileTag (expected : Text)
  /-- The header has no author tag. -/
  | noAuthorTag
  /-- A header file without include guard. -/
  | noGuard
  /-- The method with this signature has no documentation comment. -/
  | undocumented (signature : Text)
  /-- The comment of the method does not document the parameter with its type. -/
  | badParam (signature name type : Text)
  /-- The comment of the method does not document the returned type. -/
  | noReturn (signature type : Text)
  /-- The file could not be read. -/
  | unreadable (path : Path) (cause : Text)
  /-- The edited file could not be written. -/
  | unwritable (path : Path) (cause : Text)
  deriving DecidableEq, Repr

/-- The wording of a problem. -/
def Problem.message : Problem → Text
  | noHeader => "No header comment found".toList
  | wrongFileName expected => "Incorrect file name in '@file' (expected '@file ".toList ++ expected ++ "')".toList
  | noFileTag expected =>
    "Missing or incorrect @file in header (expected '@file ".toList ++ expected ++ "')".toList
  | noAuthorTag => "Missing @author in header (expected '@author <name>')".toList
  | noGuard => "Missing include guard (expected '#pragma once' directive)".toList
  | undocumented signature => "Method '".toList ++ signature ++ "' has no docstring".toList
  | badParam signature name type =>
    "Missing or incorrect @param for '".toList ++ name ++ "' in method '".toList ++ signature ++
      "' (expected '@param ".toList ++ name ++ ['['] ++ type ++ "] - ...')".toList
  | noReturn signature type =>
    "Missing @return with type for non-void method '".toList ++ signature ++ "' (expected '@return [".toList ++
      type ++ "] - ...')".toList
  | unreadable path cause =>
    "could not read file: failed to read ".toList ++ path.text ++ ": ".toList ++ cause
  | unwritable path cause =>
    "could not write normalized header: failed to write ".toList ++ path.text ++ ": ".toList ++ cause

/-- A remark on a line of a file. -/
structure Finding where
  path : Path
  line : Nat
  message : Text
  deriving DecidableEq, Repr

namespace Finding

/-- The finding of a problem. -/
def ofProblem (path : Path) (line : Nat) (problem : Problem) : Finding := ⟨path, line, problem.message⟩

/-- A finding on one line: path, line number and message. -/
def render (f : Finding) : Text :=
  f.path.text ++ [':'] ++ Text.ofNat f.line ++ ": ".toList ++ f.message

end Finding
end DocLint
