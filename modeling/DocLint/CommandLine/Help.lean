import DocLint.Console

/-!
# The help

The help says what the program does and lists its options in two columns: how an option is written, and what it is for
(`Help.render`). On an output with styles the headings are bold and underlined, and what is typed as it stands is bold.
Styles take no room, so that the second column begins at the same place with them and without.
-/

namespace DocLint
namespace Help

section Styles

/-- The sequence that sets bold letters. -/
def bold : Text := Color.escape :: "[1m".toList

/-- The sequence that sets a line under the letters. -/
def underlined : Text := Color.escape :: "[4m".toList

/-- What is typed as it stands. -/
def typed (styled : Bool) (s : Text) : Text := if styled then bold ++ s ++ Color.reset else s

/-- A heading. -/
def heading (styled : Bool) (s : Text) : Text := if styled then bold ++ underlined ++ s ++ Color.reset else s

/-- Whether the help has styles by the environment: a refusing variable that is not empty decides first, then a forcing
one, then the switch; otherwise a terminal has styles that is not of the kind `dumb`, or is switched on, or belongs to an
automatic build. A variable with the value `0` is a no. -/
def enabled (terminal : Bool) (refused forced switched kind build : Option Text) : Bool :=
  let isOn (value : Text) : Bool := value != ['0']
  if refused.any (!·.isEmpty) then false
  else if forced.any isOn then true
  else if switched.any (!isOn ·) then false
  else terminal && (kind.any (· != "dumb".toList) || switched.isSome || build.isSome)

end Styles

section Items

/-- What the help says of an option. -/
structure Item where
  short : Option Char
  long : Text
  /-- What the value of the option is called, if it takes one. -/
  value : Option Text
  description : Text
  deriving DecidableEq, Repr

/-- How the option is written. -/
def Item.form (styled : Bool) (e : Item) : Text :=
  (match e.short with
    | some c => typed styled ['-', c] ++ ", ".toList
    | none => "    ".toList) ++
  typed styled ("--".toList ++ e.long) ++
  (match e.value with
    | some value => " <".toList ++ value ++ ['>']
    | none => [])

/-- The room that an option takes in the first column. -/
def Item.width (e : Item) : Nat := (e.form false).length

/-- The options. -/
def items : List Item :=
  [⟨some 'd', "directory".toList, some "DIRECTORY".toList, "Directory to scan recursively [default: .]".toList⟩,
   ⟨none, "docstrings".toList, none, "Also check @param/@return docstrings of methods declared in headers".toList⟩,
   ⟨some 'n', "dry-run".toList, none, "Report header rewrites without writing them".toList⟩,
   ⟨some 'v', "verbose".toList, none, "Debug logging and a listing of every matched declaration".toList⟩,
   ⟨none, "no-color".toList, none, "Disable colored output".toList⟩,
   ⟨some 'h', "help".toList, none, "Print help".toList⟩,
   ⟨some 'V', "version".toList, none, "Print version".toList⟩]

/-- The room that the widest option takes. -/
def columnWidth : Nat := (items.map Item.width).foldl max 0

/-- The line of an option. -/
def Item.render (styled : Bool) (e : Item) : Text :=
  "  ".toList ++ e.form styled ++ List.replicate (columnWidth - e.width + 2) ' ' ++ e.description

end Items

/-- The lines of the help. -/
def lines (styled : Bool) : List Text :=
  ["Verify and repair file headers and method docstrings in C++ sources".toList,
   [],
   heading styled "Usage:".toList ++ [' '] ++ typed styled "doccheck".toList ++ " [OPTIONS]".toList,
   [],
   heading styled "Options:".toList] ++ items.map (Item.render styled)

/-- The help. -/
def render (styled : Bool) : Text := (lines styled).flatMap Console.line

/-- The line that the version is told with. -/
def version : Text := Console.line "doccheck 0.1.0".toList

end Help
end DocLint
