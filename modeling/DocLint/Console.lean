import DocLint.Run
import DocLint.Console.Emphasis

/-!
# Console output

What a run prints: for each file the declarations found in it, if they are listed, and the header lines that were or
would be edited; after all files, the findings.
-/

namespace DocLint
namespace Console

/-- A line of output. -/
def line (s : Text) : Text := s ++ ['\n']

/-- The findings of a run, or one line that there are none. -/
def findings (colored : Bool) (all : List Finding) : Text :=
  if all.isEmpty then
    '\n' :: line (Color.green.paint colored "No issues found. All files comply with docstring standards!".toList)
  else
    '\n' :: line "Issues found:".toList ++ line "---------------".toList ++ all.flatMap fun f => line f.render

/-- An edited line before and after, without the blanks at its end. -/
def edit (e : Edit) : Text :=
  "Line ".toList ++ Text.ofNat e.line ++ ": ".toList ++ Text.trimEnd e.old ++ " -> ".toList ++ Text.trimEnd e.new

/-- The edits of a file. -/
def edits (colored : Bool) (path : Path) (all : List Edit) (written : Bool) : Text :=
  let title :=
    if written then Color.green.paint colored ("Modified ".toList ++ path.text ++ [':'])
    else Color.yellow.paint colored ("Would modify ".toList ++ path.text ++ [':'])
  line title ++ all.flatMap fun e => line (Color.green.paint colored (edit e))

/-- A signature with the number of its line and with its types in color. -/
def signature (colored : Bool) (number : Nat) (text : Text) (types : List Text) : Text :=
  Color.blue.paint colored ("Line ".toList ++ Text.ofNat number) ++ ": ".toList ++ Emphasis.render colored types text

/-- A declaration with the number of its line; its return type and parameter types are in color. -/
def declaration (colored : Bool) (d : Declaration) : Text :=
  signature colored d.startLine d.signature.text (d.signature.returnType :: d.params.map (·.type))

/-- The declarations of a file under its path. -/
def declarations (colored : Bool) (path : Path) (all : List Declaration) : Text :=
  line (path.text ++ [':']) ++ all.flatMap fun d => line ("  ".toList ++ declaration colored d)

/-- What is printed of one file. -/
def file (colored listed : Bool) (outcome : FileOutcome) : Text :=
  (if listed && !outcome.declarations.isEmpty then declarations colored outcome.path outcome.declarations else []) ++
    (if outcome.edits.isEmpty then [] else edits colored outcome.path outcome.edits outcome.written)

/-- What is printed of a run. -/
def run (colored listed : Bool) (outcomes : List FileOutcome) : Text :=
  outcomes.flatMap (file colored listed) ++ findings colored (outcomes.flatMap (·.findings))

end Console
end DocLint
