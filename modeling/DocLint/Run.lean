import DocLint.Review
import DocLint.FileTree.Access
import DocLint.FileTree.Below

/-!
# A run over a file tree

A file is read and reviewed, and the edits of its header are made unless the run is dry (`FileTree.lintFile`). A file
that cannot be read or written gets a finding and does not stop the run. `FileTree.lint` goes through all files below a
directory, in the order of the tree; only a root that is no directory is an error.

What happens between reading and writing is in `FilePlan`, which knows no file tree.
-/

namespace DocLint

/-- What a run reports of one file. -/
structure FileOutcome where
  path : Path
  role : FileRole
  findings : List Finding
  edits : List Edit
  /-- The edits have been made. -/
  written : Bool
  declarations : List Declaration
  deriving DecidableEq, Repr

namespace FileOutcome

/-- The outcome of a file that cannot be read. -/
def unreadable (path : Path) (role : FileRole) (cause : AccessError) : FileOutcome :=
  ⟨path, role, [Finding.ofProblem path 1 (.unreadable path cause.reason)], [], false, []⟩

/-- The outcome of a file before anything is written. -/
def ofReview (path : Path) (role : FileRole) (review : ContentReview) : FileOutcome :=
  ⟨path, role, review.findings, review.header.edits, false, review.methods.map (·.declaration)⟩

/-- The outcome after an attempt to write the file, the header of which begins at `line`. -/
def settled (outcome : FileOutcome) (line : Nat) : Except AccessError Unit → FileOutcome
  | .ok _ => { outcome with written := true }
  | .error cause =>
    { outcome with
      findings := outcome.findings ++ [Finding.ofProblem outcome.path line (.unwritable outcome.path cause.reason)] }

end FileOutcome

/-- What comes of reading a file: its outcome so far and, if its header changes and the run is not dry, the content to
write. -/
structure FilePlan where
  outcome : FileOutcome
  /-- The line where the header begins. -/
  headerLine : Nat
  newContent : Option Text
  deriving DecidableEq, Repr

/-- The plan for a file from what reading it gave. -/
def FilePlan.ofRead (path : Path) (role : FileRole) (options : LintOptions) : Except AccessError Text → FilePlan
  | .error cause => ⟨.unreadable path role cause, 1, none⟩
  | .ok content =>
    let review := ContentReview.ofContent path role options content
    { outcome := .ofReview path role review
      headerLine := (review.header.header.map (·.startLine)).getD 1
      newContent :=
        if review.header.edits.isEmpty || options.dryRun then none else some (review.header.apply content) }

namespace FileTree

/-- Checks one file of the tree. -/
def lintFile (t : FileTree) (path : Path) (role : FileRole) (options : LintOptions) : FileOutcome × FileTree :=
  let plan := FilePlan.ofRead path role options (t.readText path)
  match plan.newContent with
  | none => (plan.outcome, t)
  | some content =>
    match t.replaceContent path content with
    | .ok t => (plan.outcome.settled plan.headerLine (.ok ()), t)
    | .error cause => (plan.outcome.settled plan.headerLine (.error cause), t)

/-- Checks files of the tree one after the other; paths without a role are passed over. -/
def lintAll (options : LintOptions) : FileTree → List Path → List FileOutcome × FileTree
  | t, [] => ([], t)
  | t, path :: rest =>
    match FileRole.ofPath? path with
    | none => lintAll options t rest
    | some role =>
      let (outcome, t) := t.lintFile path role options
      let (outcomes, t) := lintAll options t rest
      (outcome :: outcomes, t)

/-- Checks all files below a directory. -/
def lint (t : FileTree) (root : Path) (options : LintOptions) :
    Except NotADirectory (List FileOutcome × FileTree) :=
  (t.filesUnder root).map (lintAll options t)

end FileTree
end DocLint
