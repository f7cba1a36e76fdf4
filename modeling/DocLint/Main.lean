import DocLint.CommandLine
import DocLint.FileTree.Replacement

/-!
# The program

Runs a command line on the files of the disk. All decisions are made by the library: which files to check by
`FileRole.ofPath?`, what to report and write by `FilePlan`, and what to print by `CommandLine`.
-/

namespace DocLint
namespace Disk

/-- A path as the system takes it. -/
def name (path : Path) : String := String.ofList path.text

/-- Why the system refused an access. -/
def cause : IO.Error → AccessError
  | .noFileOrDirectory .. => .notFound
  | .alreadyExists .. => .alreadyExists
  | error => .other error.toString.toList

/-- The result of an access or why it failed. -/
def attempt {α : Type} (access : IO α) : IO (Except AccessError α) := do
  try
    return .ok (← access)
  catch error => return .error (cause error)

/-- The text of a file. -/
def readText (path : Path) : IO (Except AccessError Text) := do
  match ← attempt (IO.FS.readBinFile (name path)) with
  | .error cause => return .error cause
  | .ok bytes =>
    match Text.decode? bytes with
    | some content => return .ok content
    | none => return .error .notText

/-- How many names are tried for a new file. -/
def maxDrafts : Nat := 1000

/-- A new file in a directory, under a name that nothing has there. -/
def createDraft (dir : Path) : (tries : Nat) → IO (Path × IO.FS.Handle)
  | 0 => throw (.userError "every name is taken")
  | tries + 1 => do
    let draft := dir.join (".draft" ++ toString (← IO.rand 0 999999999)).toList
    try
      return (draft, ← IO.FS.Handle.mk (name draft) .writeNew)
    catch
      | .alreadyExists .. => createDraft dir tries
      | error => throw error

/-- Replaces the content of a file through a new file next to it, which is renamed when it is complete. If the system
does not tell where the path leads, whatever has its last name is replaced. A file that replaces no other one is its
owner's alone. One that does keeps the permissions that it was created with, since `IO.FS.Metadata` does not tell those
of the other one. -/
def replaceContent (path : Path) (content : Text) : IO (Except AccessError Unit) := attempt do
  let target : Path ← try pure ⟨(← IO.FS.realPath (name path)).toString.toList⟩ catch _ => pure path
  let (draft, handle) ← createDraft target.parent maxDrafts
  try
    handle.putStr (String.ofList content)
    handle.flush
    unless ← (System.mkFilePath [name target]).pathExists do
      IO.setAccessRights (name draft) { user := { read := true, write := true } }
    IO.FS.rename (name draft) (name target)
  catch error =>
    try IO.FS.removeFile (name draft) catch _ => pure ()
    throw error

/-- The paths of the files to check below a directory, in the order of their names. -/
partial def filesUnder (dir : Path) : IO (List Path) := do
  let entries ← (System.mkFilePath [name dir]).readDir
  let entries := entries.toList.mergeSort fun a b => a.fileName.toList ≤ b.fileName.toList
  let mut found := []
  for entry in entries do
    let path := dir.join entry.fileName.toList
    match ← attempt entry.path.symlinkMetadata with
    | .error _ => continue
    | .ok data =>
      if data.type matches .dir then
        found := found ++ (← try filesUnder path catch _ => pure [])
      else if (FileRole.ofPath? path).isSome then
        match ← attempt entry.path.metadata with
        | .ok data => if data.type matches .file then found := found ++ [path]
        | .error _ => continue
  return found

/-- Checks one file. -/
def lintFile (path : Path) (role : FileRole) (options : LintOptions) : IO FileOutcome := do
  let plan := FilePlan.ofRead path role options (← readText path)
  match plan.newContent with
  | none => return plan.outcome
  | some content => return plan.outcome.settled plan.headerLine (← replaceContent path content)

/-- Checks all files below a directory. -/
def lint (root : Path) (options : LintOptions) : IO (Except NotADirectory (List FileOutcome)) := do
  if ← (System.mkFilePath [name root]).isDir then
    let outcomes ← (← filesUnder root).filterMapM fun path =>
      (FileRole.ofPath? path).mapM fun role => lintFile path role options
    return .ok outcomes
  else return .error ⟨root⟩

/-- A variable of the environment. -/
def setting (name : String) : IO (Option Text) := return (← IO.getEnv name).map String.toList

/-- Whether the output can have colors. -/
def colored : IO Bool := do
  return Color.enabled (← (← IO.getStdout).isTty) (← setting "CLICOLOR_FORCE") (← setting "NO_COLOR")
    (← setting "CLICOLOR")

/-- Whether the help can have styles. -/
def styled : IO Bool := do
  return Help.enabled (← (← IO.getStdout).isTty) (← setting "NO_COLOR") (← setting "CLICOLOR_FORCE")
    (← setting "CLICOLOR") (← setting "TERM") (← setting "CI")

/-- Answers a request. -/
def answer : Request → IO CommandLine.Answer
  | .lint options => do
    match ← lint options.root options.checks with
    | .ok outcomes => return CommandLine.success (← colored) options outcomes
    | .error error => return CommandLine.failure error
  | .help => return CommandLine.help (← styled)
  | .version => return CommandLine.version
  | .wrongUsage => return CommandLine.usageError

end Disk
end DocLint

/-- Runs the command line and answers with its exit code. -/
def main (args : List String) : IO UInt32 := do
  let answer ← DocLint.Disk.answer (.ofArgs (args.map String.toList))
  (← IO.getStdout).putStr (String.ofList answer.output)
  (← IO.getStderr).putStr (String.ofList answer.error)
  return UInt32.ofNat answer.code
