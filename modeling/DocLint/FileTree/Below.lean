import DocLint.FileTree.Resolve
import DocLint.FileRole

/-!
# Files below a directory

`FileTree.filesUnder` lists the files to check below a directory: all entries below it that are, or are links to, files
with a role. Links to directories are not entered, except that the root itself may be one. The files come in the order
of the tree, each directory's contents in the place of the directory.
-/

namespace DocLint

/-- The root of a walk is not a directory. -/
structure NotADirectory where
  root : Path
  deriving DecidableEq, Repr

/-- The wording of the error. -/
def NotADirectory.message (e : NotADirectory) : Text := "not a directory: ".toList ++ e.root.text

namespace FileTree

/-- The names that lead from a place to each of the entries below it, in the order of the tree. -/
def below (t : FileTree) (place : Place) : List (List Text) :=
  t.entries.filterMap fun e => place.isPrefixOf? e.1

/-- The path leads to a file that has a role. -/
def isRecognized (t : FileTree) (path : Path) : Bool := t.isFile path && (FileRole.ofPath? path).isSome

/-- The paths of the files to check below `root`. -/
def filesUnder (t : FileTree) (root : Path) : Except NotADirectory (List Path) :=
  match t.goal .reach root with
  | .ok (.entry place .directory) => .ok (((t.below place).map root.joinAll).filter t.isRecognized)
  | _ => .error ⟨root⟩

end FileTree
end DocLint
