import DocLint.FileTree.Access

/-!
# Replacing content in steps

`FileTree.replace` sets a file in one step. To a reader it is one: a temporary file is made in the directory of the
file, filled piece by piece, and moved over the file. Each step can fail for reasons that no tree shows, and then the
temporary file is removed (`Replacement.Step`).

What is replaced depends on where the path leads, which is asked at the beginning. The answer names the place that the
path leads to; there is none if the path leads to nothing, or if the system cannot tell (`FileTree.IsAnswer`). The
permissions of a file, which the temporary file takes over before it is moved, are no part of a tree.
-/

namespace DocLint

/-- The path of the directory that has the last name of the path. That of a path without any name is the working
directory. -/
def Path.parent (p : Path) : Path :=
  p.parents.headD (if p.isAbsolute && p.parts.any leads then ⟨['/']⟩ else ⟨Path.here⟩)

namespace FileTree

section Targets

variable (t : FileTree)

/-- An answer to where the path leads. A place that is named is the right one, but there may be no answer. -/
def IsAnswer (path : Path) (answer : Option Place) : Prop := ∀ place ∈ answer, t.resolve? path = some place

/-- The directory where the temporary file goes. -/
def directoryOf? : Target → Option Place
  | .reached place => if place = [] then some t.workDir else some place.dropLast
  | .named path =>
    match t.goal .reach path.parent with
    | .ok (.entry dir .directory) => some dir
    | _ => none

/-- Moves an entry to a place. A file or a link that is there is lost, and a directory stays. -/
def move? (source place : Place) : Option FileTree :=
  if source = place then some t
  else match t.get? source with
    | some entry => (t.put? place entry).bind fun t => t.erase? source
    | none => none

end Targets

end FileTree

/-- How far a replacement has come. -/
inductive Stage
  | begun
  /-- There is a temporary file, which holds the beginning of the content. -/
  | filling (target : Target) (temporary : Place) (written : ByteArray)
  | done
  | failed

/-- A replacement on its way. -/
structure Replacement where
  tree : FileTree
  stage : Stage

namespace Replacement

/-- The replacement of the content at a path goes on by one step. -/
inductive Step (path : Path) (content : Text) : Replacement → Replacement → Prop
  | create {t t' : FileTree} {answer : Option Place} {dir : Place} {name : Text} : t.IsAnswer path answer →
      t.directoryOf? (.ofAnswer path answer) = some dir →
      t.get? (dir ++ [name]) = none → t.put? (dir ++ [name]) (.file .empty) = some t' →
      Step path content ⟨t, .begun⟩ ⟨t', .filling (.ofAnswer path answer) (dir ++ [name]) .empty⟩
  | fill {t t' : FileTree} {target : Target} {temporary : Place} {written piece rest : ByteArray} :
      written ++ piece ++ rest = content.encode → t.put? temporary (.file (written ++ piece)) = some t' →
      Step path content ⟨t, .filling target temporary written⟩ ⟨t', .filling target temporary (written ++ piece)⟩
  | move {t t' : FileTree} {target : Target} {temporary place : Place} : t.destination target = .ok place →
      t.move? temporary place = some t' →
      Step path content ⟨t, .filling target temporary content.encode⟩ ⟨t', .done⟩
  /-- There is no temporary file yet. -/
  | refuse (t : FileTree) : Step path content ⟨t, .begun⟩ ⟨t, .failed⟩
  /-- A temporary file that is not moved removes itself. -/
  | abandon {t t' : FileTree} {target : Target} {temporary : Place} {written : ByteArray} :
      t.erase? temporary = some t' →
      Step path content ⟨t, .filling target temporary written⟩ ⟨t', .failed⟩

end Replacement
end DocLint
