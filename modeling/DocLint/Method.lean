import DocLint.Signature
import DocLint.Parameter
import DocLint.DocComment

/-!
# Methods of a file

The scan goes through the lines of a file once. Each line is inside a documentation comment, inside a method that is
skipped to its end, or free. A free line may begin a comment or declare a method; any other line detaches the comment
before it, unless it is of a sort that may stand between a comment and its method. A declaration whose parameter list
is left open takes up to eight more lines.
-/

namespace DocLint

/-- A declaration found in a file, with the numbers of its first and last line. -/
structure Declaration where
  signature : Signature
  params : List Parameter
  startLine : Nat
  endLine : Nat
  deriving DecidableEq, Repr

/-- A declaration with the documentation comment right before it. -/
structure Method where
  declaration : Declaration
  comment : Option DocComment
  deriving DecidableEq, Repr

/-- A declaration read off one or more lines. -/
structure Candidate where
  signature : Signature
  /-- The trimmed lines it was read off, joined by spaces. -/
  text : Text
  /-- The number of those lines. -/
  size : Nat
  deriving DecidableEq, Repr

namespace Candidate

/-- How many further lines an open parameter list may take. -/
def maxContinuation : Nat := 8

/-- The candidate that comes of `joined`, read off `size` lines, with as many of the following lines as close its
parameter list; at most `more` of them. -/
def extend? : (more : Nat) → (joined : Text) → (size : Nat) → List Text → Option Candidate
  | 0, _, _, _ => none
  | _ + 1, _, _, [] => none
  | more + 1, joined, size, line :: rest =>
    let joined := joined ++ ' ' :: Text.trim line
    if Signature.parenSurplus joined ≤ 0 then
      (Signature.ofLine? joined).map fun signature => ⟨signature, joined, size + 1⟩
    else extend? more joined (size + 1) rest

/-- The declaration that the lines begin with. -/
def ofLines? : List Text → Option Candidate
  | [] => none
  | line :: rest =>
    let first := Text.trim line
    match Signature.ofLine? first with
    | some signature => some ⟨signature, first, 1⟩
    | none => if Signature.beginsDeclaration first then extend? maxContinuation first 1 rest else none

end Candidate

/-- A method whose end has not been reached. -/
structure UnclosedMethod where
  signature : Signature
  comment : Option DocComment
  startLine : Nat
  /-- Opening braces less closing braces so far. -/
  depth : Int
  /-- An opening brace has been seen. -/
  braced : Bool
  deriving DecidableEq, Repr

namespace UnclosedMethod

/-- The method after one more character of it. -/
def readChar (m : UnclosedMethod) (c : Char) : UnclosedMethod :=
  if c = '{' then { m with depth := m.depth + 1, braced := true }
  else if c = '}' then { m with depth := m.depth - 1 }
  else m

/-- The method after one more trimmed line of it. -/
def read (m : UnclosedMethod) (line : Text) : UnclosedMethod := line.foldl readChar m

/-- The method ends with this line, which has been read: its braces are closed or, without any brace, the line ends
with a semicolon or closing brace. -/
def endsAt (m : UnclosedMethod) (line : Text) : Bool :=
  if m.braced then m.depth ≤ 0 else line.getLast? == some ';' || line.getLast? == some '}'

/-- The method when it ends at line `endLine`. -/
def close (m : UnclosedMethod) (endLine : Nat) : Method :=
  ⟨⟨m.signature, Parameter.ofSignature m.signature.text, m.startLine, endLine⟩, m.comment⟩

end UnclosedMethod

/-- What the scan is in the middle of. -/
inductive ScanState
  /-- Nothing; `pending` is the comment that the next declaration gets. -/
  | free (pending : Option DocComment)
  /-- A documentation comment. -/
  | inComment (comment : DocComment)
  /-- A method. -/
  | inMethod (method : UnclosedMethod)
  deriving DecidableEq, Repr

namespace ScanState

/-- The line may stand between a comment and its method: an empty line, a comment, a template head or an attribute. -/
def keepsComment (line : Text) : Bool :=
  line.isEmpty || "//".toList.isPrefixOf line || "/*".toList.isPrefixOf line ||
    "template".toList.isPrefixOf line || "[[".toList.isPrefixOf line

/-- The state after a line of a comment, with the number `number`. -/
def readComment (comment : DocComment) (number : Nat) (line : Text) : ScanState :=
  let comment := { comment with lines := comment.lines ++ [line] }
  if DocComment.closes line then .free (some { comment with endLine := number }) else .inComment comment

/-- The state after a line that begins a comment. -/
def beginComment (number : Nat) (line : Text) : ScanState :=
  let comment : DocComment := ⟨number, number, [line]⟩
  if DocComment.closes line then .free (some comment) else .inComment comment

/-- The state after a text of a method, the last line of which has the number `number`, and the method if it ends
there. -/
def readMethod (method : UnclosedMethod) (number : Nat) (text : Text) : ScanState × Option Method :=
  let method := method.read text
  if method.endsAt text then (.free none, some (method.close number)) else (.inMethod method, none)

/-- One step of the scan at the line with the number `number`, before the lines `rest`: the new state, the method that
ends, and how many of `rest` are read with the line. -/
def step (state : ScanState) (number : Nat) (line : Text) (rest : List Text) : ScanState × Option Method × Nat :=
  let stripped := Text.trim line
  match state with
  | inComment comment => (readComment comment number stripped, none, 0)
  | inMethod method =>
    let (state, ended) := readMethod method number stripped
    (state, ended, 0)
  | free pending =>
    if DocComment.opens stripped then (beginComment number stripped, none, 0)
    else match Candidate.ofLines? (line :: rest) with
      | some found =>
        let method : UnclosedMethod := ⟨found.signature, pending, number, 0, false⟩
        let (state, ended) := readMethod method (number + found.size - 1) found.text
        (state, ended, found.size - 1)
      | none => (.free (if keepsComment stripped then pending else none), none, 0)

/-- The methods that end in the lines, the first of which has the number `number`. The first `skip` lines are read
already. -/
def scan : (skip : Nat) → ScanState → (number : Nat) → List Text → List Method
  | _, _, _, [] => []
  | skip + 1, state, number, _ :: rest => scan skip state (number + 1) rest
  | 0, state, number, line :: rest =>
    let (state, ended, skip) := step state number line rest
    ended.toList ++ scan skip state (number + 1) rest

end ScanState

/-- The methods of a file in order, each with the documentation comment right before it. -/
def Method.ofLines (lines : List Text) : List Method := ScanState.scan 0 (.free none) 1 lines

end DocLint
