import DocLint.Text

/-!
# Paths

A path is a text whose parts are separated by slashes. Empty parts and single dots say nothing about where a path
leads, so the name of a file is the last part that is neither (`Path.fileName?`). A name splits at its last dot into
stem and extension; a dot that begins the name is not such a dot.
-/

namespace DocLint

/-- A path as it is written. -/
structure Path where
  text : Text
  deriving DecidableEq, Repr

namespace Path

/-- The part that stands for the directory itself. -/
def here : Text := ['.']

/-- The part that stands for the directory above. -/
def above : Text := ['.', '.']

/-- The parts between the slashes, empty ones included. -/
def parts (p : Path) : List Text := p.text.splitOn '/'

/-- The part leads somewhere: it is neither empty nor a single dot. -/
def leads (part : Text) : Bool := !(part.isEmpty || part == here)

/-- The path starts at the top, whatever directory one works in. -/
def isAbsolute (p : Path) : Bool := p.text.head? == some '/'

/-- The path with the given parts. -/
def ofParts (parts : List Text) : Path := ⟨List.intercalate ['/'] parts⟩

/-- The path ends in a slash. -/
def endsInSlash (p : Path) : Bool := p.text.getLast? == some '/'

/-- The beginnings of a path that end in a part that leads somewhere, the longest first. The parts are in reverse
order. -/
def beginnings : List Text → List Path
  | [] => []
  | part :: up => if leads part then ofParts (part :: up).reverse :: beginnings up else beginnings up

/-- The paths of the directories that the path goes through, the nearest first. -/
def parents (p : Path) : List Path := (beginnings p.parts.reverse).tail

/-- The name of what the path leads to, unless its last step goes up or nowhere. -/
def fileName? (p : Path) : Option Text :=
  match p.parts.reverse.find? leads with
  | some name => if name = above then none else some name
  | none => none

/-- A name cut at its last dot into stem and extension; a leading dot does not count. -/
def splitName (name : Text) : Text × Option Text :=
  match name.reverse.dropWhile (· != '.') with
  | _ :: c :: stem => ((c :: stem).reverse, some (name.reverse.takeWhile (· != '.')).reverse)
  | _ => (name, none)

/-- The extension of the file name. -/
def extension? (p : Path) : Option Text := p.fileName?.bind fun name => (splitName name).2

/-- The file name without its extension. -/
def stem? (p : Path) : Option Text := p.fileName?.map fun name => (splitName name).1

/-- The path of the entry `name` in the directory at `p`. -/
def join (p : Path) (name : Text) : Path :=
  if p.text = [] ∨ p.text.getLast? = some '/' then ⟨p.text ++ name⟩ else ⟨p.text ++ '/' :: name⟩

/-- The path reached from `p` through the given names, one after the other. -/
def joinAll (p : Path) (names : List Text) : Path := names.foldl join p

end Path
end DocLint
