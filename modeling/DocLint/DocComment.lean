import DocLint.Text

/-!
# Documentation comments

A documentation comment runs from a line that begins with `/**` to the first line, the same or a later one, that ends
with `*/`. Its lines are kept trimmed. `DocComment.first?` finds the first one of a file, which is its header.
-/

namespace DocLint

/-- A documentation comment, with the numbers of its first and last line. -/
structure DocComment where
  startLine : Nat
  endLine : Nat
  /-- The trimmed lines, those with the two marks included. -/
  lines : List Text
  deriving DecidableEq, Repr

namespace DocComment

/-- The mark that begins a comment. -/
def openMark : Text := "/**".toList

/-- The mark that ends a comment. -/
def closeMark : Text := "*/".toList

/-- The line begins a comment. -/
def opens (line : Text) : Bool := openMark.isPrefixOf (Text.trim line)

/-- The line ends a comment. -/
def closes (line : Text) : Bool := closeMark.isSuffixOf (Text.trim line)

/-- The lines of a comment in one, for searches that may cross lines. -/
def text (comment : DocComment) : Text := Text.spaced comment.lines

/-- The trimmed lines up to the first one that ends a comment. -/
def untilClose? : List Text → Option (List Text)
  | [] => none
  | line :: rest =>
    if closes line then some [Text.trim line] else (untilClose? rest).map (Text.trim line :: ·)

/-- The first comment of the lines, of which the first has the number `number`. -/
def firstFrom? (number : Nat) : List Text → Option DocComment
  | [] => none
  | line :: rest =>
    if opens line then
      (untilClose? (line :: rest)).map fun lines => ⟨number, number + lines.length - 1, lines⟩
    else firstFrom? (number + 1) rest

/-- The first comment of a file. There is none when its first opening mark is never followed by a closing one. -/
def first? (lines : List Text) : Option DocComment := firstFrom? 1 lines

end DocComment
end DocLint
