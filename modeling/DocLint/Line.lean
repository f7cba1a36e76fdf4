import DocLint.Text

/-!
# Lines of a file

A file's content is cut into lines in two ways. `Line.ofContent` keeps the ending of every line, so that the file can
be put together again with only some texts replaced. `Text.lines` keeps the texts alone, for the checks that only
look.

Both cut after every line feed and take a carriage return right before it as part of the ending; a carriage return
that ends the content stays in the last line.
-/

namespace DocLint

/-- One line of a file, numbered from 1. -/
structure Line where
  number : Nat
  text : Text
  /-- The line ending: a line feed, a carriage return with a line feed, or nothing on an unended last line. -/
  ending : Text
  deriving DecidableEq, Repr

namespace Line

/-- The ending with a carriage return. -/
def crlf : Text := ['\r', '\n']

/-- The ending without a carriage return. -/
def lf : Text := ['\n']

/-- A line from its text and ending written together. -/
def ofRaw (number : Nat) (raw : Text) : Line :=
  match crlf.isSuffixOf? raw with
  | some text => ⟨number, text, crlf⟩
  | none =>
    match lf.isSuffixOf? raw with
    | some text => ⟨number, text, lf⟩
    | none => ⟨number, raw, []⟩

/-- The line as it stands in the file. -/
def raw (line : Line) : Text := line.text ++ line.ending

/-- The content cut after every line feed, which stays with the piece it ends. -/
def rawLines : Text → List Text
  | [] => []
  | c :: rest => if c = '\n' then [c] :: rawLines rest else Text.consHead c (rawLines rest)

/-- The lines of a content, numbered from 1, each with its ending. -/
def ofContent (content : Text) : List Line := (rawLines content).mapIdx fun i raw => ofRaw (i + 1) raw

end Line

/-- The texts of the lines of a content, without their endings. -/
def Text.lines (content : Text) : List Text :=
  let parts := content.splitOn '\n'
  let last := parts.getLastD []
  parts.dropLast.map (Text.dropMarker ['\r']) ++ (if last.isEmpty then [] else [last])

end DocLint
