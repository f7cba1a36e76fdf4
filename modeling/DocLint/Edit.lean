import DocLint.Line

/-!
# Edits

An edit replaces the text of one line. `Edit.applyAll` makes edits in a content; all other lines and all line endings
are copied.
-/

namespace DocLint

/-- A line whose text is replaced. -/
structure Edit where
  line : Nat
  old : Text
  new : Text
  deriving DecidableEq, Repr

namespace Edit

/-- The text that a line has after the edits: the first one with its number decides. -/
def textOf (edits : List Edit) (line : Line) : Text :=
  match edits.find? (·.line = line.number) with
  | some edit => edit.new
  | none => line.text

/-- The content with every edit made. -/
def applyAll (edits : List Edit) (content : Text) : Text :=
  (Line.ofContent content).flatMap fun line => textOf edits line ++ line.ending

end Edit
end DocLint
