import DocLint.FileTree
import DocLint.AccessError

/-!
# Where a path leads

A path that starts with a slash is followed from the top, any other path from the working directory. Empty parts and
single dots stay, double dots go up (above the top is the top), and a name goes to the entry of that name in the
directory reached so far; a link on the way continues with its target, followed from the top or from the directory of
the link. Only the last name may be missing, which is a place where a new entry can go (`Goal.vacant`). What is done
with a link or with slashes at the end of a path depends on what the path is for (`Ending`). A path follows at most
forty links, so that links in a circle end in an error.

Where a path leads can also be asked by the paths from the top of all places on its way, each of which is looked up by
itself (`Ending.resolve`). Then a place far below the top can be too far (`Ending.overlong`).
-/

namespace DocLint

/-- Where the path starts when it is followed from a directory. -/
def Path.start (p : Path) (dir : Place) : Place := if p.isAbsolute then [] else dir

/-- The most bytes that a path has. -/
def Path.maxBytes : Nat := 4095

/-- The path holds the character of code 0, which ends a text for the system. -/
def Path.holdsNul (p : Path) : Bool := p.text.contains '\x00'

/-- Why the path is refused as it is written, if it is. -/
def Path.fault? (p : Path) : Option AccessError :=
  if p.holdsNul then some .nulInName
  else if p.text.isEmpty then some .notFound
  else if Path.maxBytes < p.text.byteCount then some .nameTooLong
  else none

/-- The bytes of the path that leads from the top to a place. -/
def Place.pathBytes : Place → Nat
  | [] => 0
  | name :: rest => 1 + name.byteCount + pathBytes rest

/-- What a path leads to. -/
inductive Goal
  | entry (place : Place) (entry : Entry)
  /-- A place where nothing is, in a directory of the tree. -/
  | vacant (place : Place)

/-- The place that a path leads to. -/
def Goal.place : Goal → Place
  | entry place _ | vacant place => place

/-- What is done at the last name of a path. -/
inductive Ending
  /-- A link is followed; slashes need a directory before them. -/
  | reach
  /-- A link is the goal itself, but it is followed before slashes, which need a directory. -/
  | inspect
  /-- Whatever has the name is the goal, and slashes mean nothing. -/
  | change
  /-- A link is followed, and slashes are refused. -/
  | write
  /-- A link is followed, and each place on the way is looked up by its path from the top. -/
  | resolve
  deriving DecidableEq, Repr

namespace Ending

/-- A name before the parts `rest` is the last of the path. -/
def isLast (ending : Ending) (rest : List Text) : Bool :=
  match ending with
  | change => rest.all (·.isEmpty)
  | _ => rest.isEmpty

/-- A link with the last name is the goal. -/
def keepsLink : Ending → Bool
  | inspect | change => true
  | _ => false

/-- The parts `rest` after a name ask for a directory: they go up first, or nowhere. -/
def asksDirectory (rest : List Text) : Bool :=
  match rest.find? Path.leads with
  | some part => part == Path.above
  | none => !rest.isEmpty

/-- The path of a place before the parts `rest` is too long for looking up what it holds. Where a directory is asked
for, a slash is put behind the path of one. -/
def overlong (ending : Ending) (place : Place) (held : Option Entry) (rest : List Text) : Bool :=
  match ending with
  | resolve => Path.maxBytes < place.pathBytes + (held.any Entry.isDirectory && asksDirectory rest).toNat
  | _ => false

/-- The parts `rest` may not follow a name. -/
def refuses (ending : Ending) (rest : List Text) : Bool :=
  match ending with
  | write => !rest.isEmpty && rest.all (·.isEmpty)
  | _ => false

end Ending

namespace FileTree

/-- How many links a path may follow. -/
def maxLinks : Nat := 40

section Walk

variable (t : FileTree)

/-- Follows parts from a directory. A link is left to `enter`, which gets the directory and the parts to follow from
there. -/
def walkParts (ending : Ending) (enter : Place → List Text → Except AccessError Goal) :
    (dir : Place) → List Text → Except AccessError Goal
  | dir, [] => .ok (.entry dir .directory)
  | dir, part :: rest =>
    if !Path.leads part then walkParts ending enter dir rest
    else if part = Path.above then walkParts ending enter dir.dropLast rest
    else if ending.refuses rest then .error .isDirectory
    else if !Place.isName part then .error .nameTooLong
    else
      let place := dir ++ [part]
      let held := t.get? place
      if ending.overlong place held rest then .error .nameTooLong
      else match held with
      | some .directory => walkParts ending enter place rest
      | some (.link target) =>
        if ending.isLast rest && ending.keepsLink then .ok (.entry place (.link target))
        else enter (target.start dir) (target.parts ++ rest)
      | some (.file bytes) =>
        if ending.isLast rest then .ok (.entry place (.file bytes)) else .error .notDirectory
      | none => if ending.isLast rest then .ok (.vacant place) else .error .notFound

/-- Follows parts from a directory through at most `links` links. -/
def walk (ending : Ending) : (links : Nat) → (dir : Place) → List Text → Except AccessError Goal
  | 0 => t.walkParts ending fun _ _ => .error .tooManyLinks
  | links + 1 => t.walkParts ending (walk ending links)

/-- What a path leads to. -/
def goal (ending : Ending) (path : Path) : Except AccessError Goal :=
  match path.fault? with
  | some cause => .error cause
  | none => t.walk ending maxLinks (path.start t.workDir) path.parts

end Walk

section Kinds

/-- The path leads to a file. -/
def isFile (t : FileTree) (path : Path) : Bool :=
  match t.goal .reach path with
  | .ok (.entry _ (.file _)) => true
  | _ => false

/-- The path leads to a directory. -/
def isDirectory (t : FileTree) (path : Path) : Bool :=
  match t.goal .reach path with
  | .ok (.entry _ .directory) => true
  | _ => false

/-- Whether the path itself is a link; there must be something. -/
def isLink (t : FileTree) (path : Path) : Except AccessError Bool :=
  match t.goal .inspect path with
  | .ok (.entry _ (.link _)) => .ok true
  | .ok (.vacant _) => .error .notFound
  | .ok _ => .ok false
  | .error cause => .error cause

end Kinds

end FileTree
end DocLint
