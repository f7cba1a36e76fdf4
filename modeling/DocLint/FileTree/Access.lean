import DocLint.FileTree.Resolve

/-!
# Reading and writing files

Reading follows links. `FileTree.replaceContent` replaces the content of a file in one step. What is replaced is decided
before (`Target`): the file that the path leads to, with all links followed, or whatever has the last name of the path
if there is no answer to where it leads (`FileTree.resolve?`).
-/

namespace DocLint

/-- A text as the bytes of a file. -/
def Text.encode (s : Text) : ByteArray := (String.ofList s).toUTF8

/-- The bytes of a file as a text, if they are one. -/
def Text.decode? (bytes : ByteArray) : Option Text := (String.fromUTF8? bytes).map String.toList

namespace FileTree

section Reading

/-- The bytes of the file that a path leads to. -/
def read (t : FileTree) (path : Path) : Except AccessError ByteArray :=
  match t.goal .reach path with
  | .ok (.entry _ (.file bytes)) => .ok bytes
  | .ok (.vacant _) => .error .notFound
  | .ok _ => .error .isDirectory
  | .error cause => .error cause

/-- The text of the file that a path leads to. -/
def readText (t : FileTree) (path : Path) : Except AccessError Text :=
  match t.read path with
  | .ok bytes =>
    match Text.decode? bytes with
    | some s => .ok s
    | none => .error .notText
  | .error cause => .error cause

end Reading

end FileTree

/-- What a replacement replaces. -/
inductive Target
  /-- What is at the place that the path leads to. -/
  | reached (place : Place)
  /-- Whatever has the last name of the path. -/
  | named (path : Path)

/-- What is replaced at a path, from the answer to where it leads. -/
def Target.ofAnswer (path : Path) : Option Place → Target
  | some place => .reached place
  | none => .named path

namespace FileTree

section Writing

variable (t : FileTree)

/-- The place that a path leads to with all links followed, if the system can tell it. The path may be of any length, but
not the paths of the places on its way. -/
def resolve? (path : Path) : Option Place :=
  if path.holdsNul || path.text.isEmpty then none
  else match t.walk .resolve maxLinks (path.start t.workDir) path.parts with
    | .ok (.entry place _) => some place
    | _ => none

/-- The place where new content goes. -/
def destination : Target → Except AccessError Place
  | .reached place => .ok place
  | .named path => (t.goal .inspect path).map Goal.place

/-- Replaces a target in one step, or fails and changes nothing. -/
def replace (target : Target) (content : Text) : Except AccessError FileTree :=
  match t.destination target with
  | .error cause => .error cause
  | .ok place =>
    match t.put? place (.file content.encode) with
    | some t => .ok t
    | none => .error .isDirectory

/-- Replaces the content of a file in one step, or fails and changes nothing. It fails only for reasons that the tree
shows. -/
def replaceContent (path : Path) (content : Text) : Except AccessError FileTree :=
  t.replace (.ofAnswer path (t.resolve? path)) content

end Writing

end FileTree
end DocLint
