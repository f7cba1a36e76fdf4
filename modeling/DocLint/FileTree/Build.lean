import DocLint.FileTree.Resolve

/-!
# Building a tree

A directory is made with all directories above it, a file with those that its path goes through. What is made before a
failure stays, so that these changes answer with a tree in any case (`Change`). Files are written through links, while
new links and removals concern the entry that has the last name of a path. Directories are not removed.
-/

namespace DocLint

/-- What comes of a change to a tree: the tree as it is then, and why the change was not completed, if it was not. -/
structure Change where
  tree : FileTree
  failure : Option AccessError := none

/-- The change of a tree from a step that leaves the tree as it is when it fails. -/
def Change.ofStep (t : FileTree) : Except AccessError FileTree → Change
  | .ok t => ⟨t, none⟩
  | .error cause => ⟨t, some cause⟩

namespace FileTree

section Directories

/-- Makes a directory where nothing is yet. -/
def makeOne (t : FileTree) (path : Path) : Except AccessError FileTree :=
  match t.goal .change path with
  | .ok (.vacant place) =>
    match t.put? place .directory with
    | some t => .ok t
    | none => .error .notFound
  | .ok _ => .error .alreadyExists
  | .error cause => .error cause

/-- Makes a directory unless it is there. -/
def makeMissing (t : FileTree) (path : Path) : Except AccessError FileTree :=
  match t.makeOne path with
  | .ok t => .ok t
  | .error cause => if t.isDirectory path then .ok t else .error cause

/-- Makes a directory unless it is there; the paths after the first are of the directories above it, the nearest first,
and these are made before where they are missing. -/
def makeAll (t : FileTree) : List Path → Change
  | [] => ⟨t, none⟩
  | path :: above =>
    match t.makeMissing path with
    | .ok t => ⟨t, none⟩
    | .error .notFound =>
      match t.makeAll above with
      | ⟨t, none⟩ => .ofStep t (t.makeMissing path)
      | stopped => stopped
    | .error cause => ⟨t, some cause⟩

/-- Makes a directory and the directories above it. The empty path is the working directory, which is there. -/
def makeDirectory (t : FileTree) (path : Path) : Change :=
  if path.text.isEmpty then ⟨t, none⟩ else t.makeAll (path :: path.parents)

end Directories

section Entries

/-- Writes a file in a directory that is there, through links. -/
def writeFile (t : FileTree) (path : Path) (bytes : ByteArray) : Except AccessError FileTree :=
  match t.goal .write path with
  | .ok (.entry place _) | .ok (.vacant place) =>
    match t.put? place (.file bytes) with
    | some t => .ok t
    | none => .error .isDirectory
  | .error cause => .error cause

/-- Writes a file and makes the directories that its path goes through. -/
def write (t : FileTree) (path : Path) (bytes : ByteArray) : Change :=
  match t.makeAll path.parents with
  | ⟨t, none⟩ => .ofStep t (t.writeFile path bytes)
  | stopped => stopped

/-- Makes a link where nothing is yet. -/
def addLink (t : FileTree) (target path : Path) : Except AccessError FileTree :=
  if path.holdsNul then .error .nulInName
  else match target.fault?, t.goal .change path with
    | some cause, _ => .error cause
    | none, .error cause => .error cause
    | none, .ok (.vacant place) =>
      if path.endsInSlash then .error .notFound
      else match t.put? place (.link target) with
        | some t => .ok t
        | none => .error .notFound
    | none, .ok _ => .error .alreadyExists

/-- Removes a file or link. -/
def remove (t : FileTree) (path : Path) : Except AccessError FileTree :=
  match t.goal .change path with
  | .error cause => .error cause
  | .ok (.vacant _) => .error .notFound
  | .ok (.entry place _) =>
    match t.erase? place with
    | some t => if path.endsInSlash then .error .notDirectory else .ok t
    | none => .error .isDirectory

end Entries
end FileTree
end DocLint
