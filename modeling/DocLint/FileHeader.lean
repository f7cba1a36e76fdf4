import DocLint.Edit
import DocLint.Finding
import DocLint.DocComment
import DocLint.FileHeader.Renewal

/-!
# The header of a file

The first documentation comment of a file is its header. `HeaderReview.ofContent` renews the lines of the header, lists
the edits of those that change, and looks in the renewed header for the two tags that every header needs: `@file` with
the name of the file, and `@author` with a name.
-/

namespace DocLint

/-- What the header check finds in one file. -/
structure HeaderReview where
  header : Option DocComment
  hasFileTag : Bool
  hasAuthorTag : Bool
  edits : List Edit
  findings : List Finding
  deriving DecidableEq, Repr

/-- A line of a header with its renewal. -/
structure HeaderLine where
  number : Nat
  old : Text
  renewal : Renewal
  deriving DecidableEq, Repr

namespace HeaderLine

/-- The lines of the header, of all the lines of the file `fileName`. -/
def ofHeader (fileName : Text) (header : DocComment) (texts : List Text) : List HeaderLine :=
  ((texts.drop (header.startLine - 1)).take (header.endLine + 1 - header.startLine)).mapIdx fun i text =>
    ⟨header.startLine + i, text, Renewal.ofLine fileName text⟩

/-- The edit of a line that its renewal changes. -/
def edit? (line : HeaderLine) : Option Edit :=
  if line.renewal.text = line.old then none else some ⟨line.number, line.old, line.renewal.text⟩

/-- The finding of a line that names another file than `fileName`. -/
def finding? (path : Path) (fileName : Text) (line : HeaderLine) : Option Finding :=
  line.renewal.wrongName.map fun _ => Finding.ofProblem path line.number (.wrongFileName fileName)

end HeaderLine

namespace HeaderReview

/-- The header names the file, in whatever case. -/
def namesFile (fileName header : Text) : Bool :=
  (TagReader.fileTag.hits header).any fun m => Text.sameIgnoringCase (Renewal.fileNameOf m.value) fileName

/-- The header names an author. -/
def namesAuthor (header : Text) : Bool := !(TagReader.authorTag.hits header).isEmpty

/-- The review of a file without header. -/
def missing (path : Path) : HeaderReview := ⟨none, false, false, [], [Finding.ofProblem path 1 .noHeader]⟩

/-- The review of a file with a header. -/
def ofHeader (path : Path) (fileName : Text) (header : DocComment) (texts : List Text) : HeaderReview :=
  let lines := HeaderLine.ofHeader fileName header texts
  let renewed := Text.spaced (lines.map (·.renewal.text))
  let hasFileTag := namesFile fileName renewed
  let hasAuthorTag := namesAuthor renewed
  { header := some header
    hasFileTag := hasFileTag
    hasAuthorTag := hasAuthorTag
    edits := lines.filterMap (·.edit?)
    findings := lines.filterMap (·.finding? path fileName) ++
      (if hasFileTag then [] else [Finding.ofProblem path header.startLine (.noFileTag fileName)]) ++
      (if hasAuthorTag then [] else [Finding.ofProblem path header.startLine .noAuthorTag]) }

/-- The header check of a file. -/
def ofContent (path : Path) (content : Text) : HeaderReview :=
  let texts := (Line.ofContent content).map (·.text)
  match DocComment.first? texts with
  | none => missing path
  | some header => ofHeader path (path.fileName?.getD []) header texts

/-- The content with the edits of the review made. -/
def apply (review : HeaderReview) (content : Text) : Text := Edit.applyAll review.edits content

end HeaderReview
end DocLint
