import DocLint.Text.Class

/-!
# Parameters

The parameter list of a signature is the text between its first `(` and the matching `)` (`Parameter.list?`). It is cut
at the commas outside of brackets (`Parameter.parts`), and each part is read as a type and a name (`Parameter.ofText?`).
A part that has no name, such as `void` or `...`, declares no parameter.
-/

namespace DocLint

/-- A declared parameter. -/
structure Parameter where
  type : Text
  name : Text
  deriving DecidableEq, Repr

namespace Parameter

section List

/-- The text before the parenthesis that closes `depth + 1` open ones. -/
def untilClose : Nat → Text → Option Text
  | _, [] => none
  | depth, c :: rest =>
    if c = '(' then (untilClose (depth + 1) rest).map (c :: ·)
    else if c = ')' then
      match depth with
      | 0 => some []
      | depth + 1 => (untilClose depth rest).map (c :: ·)
    else (untilClose depth rest).map (c :: ·)

/-- The text between the first opening parenthesis and the one that closes it. -/
def list? : (signature : Text) → Option Text
  | [] => none
  | c :: rest => if c = '(' then untilClose 0 rest else list? rest

/-- A character that opens a bracket of any kind. -/
def isOpening (c : Char) : Bool := c == '<' || c == '[' || c == '('

/-- A character that closes a bracket of any kind. -/
def isClosing (c : Char) : Bool := c == '>' || c == ']' || c == ')'

/-- The parts of a list between its commas outside of brackets, where `depth` brackets are open already. A closing
bracket with none open counts for nothing. -/
def partsFrom : (depth : Nat) → Text → List Text
  | _, [] => [[]]
  | depth, c :: rest =>
    if isOpening c then Text.consHead c (partsFrom (depth + 1) rest)
    else if isClosing c then Text.consHead c (partsFrom (depth - 1) rest)
    else if c = ',' ∧ depth = 0 then [] :: partsFrom 0 rest
    else Text.consHead c (partsFrom depth rest)

/-- The parts of a parameter list, trimmed; empty ones are dropped. -/
def parts (list : Text) : List Text :=
  ((partsFrom 0 list).map Text.trim).filter fun part => !part.isEmpty

end List

section Part

/-- A character that an identifier begins with. -/
def startsName (c : Char) : Bool := c.isAlpha || c == '_'

/-- The text is a row of array brackets, blanks between them allowed; `inside` tells whether one is open. -/
def isDimensions : (inside : Bool) → Text → Bool
  | inside, [] => !inside
  | true, c :: rest => isDimensions (c != ']') rest
  | false, c :: rest => if c = '[' then isDimensions true rest else Text.isBlank c && isDimensions false rest

/-- Where a type ends with its last character: the blanks after it, the name, and the array brackets behind the name.
A type that ends in a word, `>` or `]` needs a blank before the name; one that ends in `*` or `&` does not. -/
def nameAfter? (last : Char) (rest : Text) : Option (Text × Text × Text) :=
  let blanks := Text.leadingBlanks rest
  match Text.trimStart rest with
  | [] => none
  | c :: name =>
    let ends := last == '*' || last == '&' ||
      ((Text.isWordChar last || last == '>' || last == ']') && !blanks.isEmpty)
    let dimensions := Text.trimStart (name.dropWhile Text.isWordChar)
    if ends && startsName c && isDimensions false dimensions then
      some (blanks, c :: Text.leadingWord name, dimensions)
    else none

/-- The shortest type that leaves a name behind it, with its blanks, then the name and its array brackets. A type
holds no line feed but at its end. -/
def cutAtName? : Text → Option (Text × Text × Text)
  | [] => none
  | c :: rest =>
    match nameAfter? c rest with
    | some (blanks, name, dimensions) => some (c :: blanks, name, dimensions)
    | none =>
      if c = '\n' then none
      else (cutAtName? rest).map fun (type, name, dimensions) => (c :: type, name, dimensions)

/-- The parameter that a part of a list declares. A default value is no part of it, and array brackets behind the
name belong to the type. -/
def ofText? (part : Text) : Option Parameter :=
  (cutAtName? (Text.trim (Text.before '=' part))).map fun (type, name, dimensions) =>
    ⟨Text.trim type ++ Text.squeeze dimensions, name⟩

end Part

/-- The parameters that a signature declares, in order. -/
def ofSignature (signature : Text) : List Parameter :=
  match list? signature with
  | some list => (parts list).filterMap ofText?
  | none => []

end Parameter
end DocLint
