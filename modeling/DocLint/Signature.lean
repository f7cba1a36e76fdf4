import DocLint.Signature.Token
import DocLint.Signature.NameToken

/-!
# Signatures

A line declares a method when its tokens are `A n ( B ) C`: a callable name `n` before the first parenthesis that is
not the first token, nothing in `A` that makes it an expression, and the parenthesis that closes the parameter list.
`Signature.ofLine?` reads the return type off `A` and the qualifiers off `C`, and writes the signature again with one
spacing. `Signature.beginsDeclaration` accepts a line that has only the part `A n (` and leaves the list open.
-/

namespace DocLint

/-- The form of a declared method. -/
inductive MethodForm
  | method
  | constructor
  | destructor
  deriving DecidableEq, Repr

/-- A declaration as far as one line shows it. -/
structure Signature where
  /-- Empty for constructors, destructors and names with nothing before them. -/
  returnType : Text
  /-- The name token as it is written. -/
  name : Text
  form : MethodForm
  /-- The declaration up to its qualifiers, and the mark that ends the line. -/
  text : Text
  deriving DecidableEq, Repr

/-- The tokens up to the parenthesis that opens a parameter list, and those after it. -/
structure DeclarationHead where
  /-- The tokens before the name. -/
  lead : List Token
  name : Text
  /-- The tokens after the parenthesis. -/
  rest : List Token
  deriving DecidableEq, Repr

namespace Signature

section Words

/-- Words that stand before a return type and are no part of it. -/
def specifiers : List Text :=
  ["inline".toList, "const".toList, "override".toList, "final".toList, "virtual".toList, "static".toList,
   "explicit".toList, "constexpr".toList, "extern".toList, "friend".toList]

/-- Qualifiers that may follow the parameter list. -/
def qualifiers : List Text := ["const".toList, "override".toList, "final".toList, "noexcept".toList]

/-- What a declaration may be set equal to. -/
def definitions : List Text := ["default".toList, "delete".toList, "0".toList]

/-- The text is a comment or a directive and never a declaration. -/
def isRemark (line : Text) : Bool :=
  "//".toList.isPrefixOf line || "/*".toList.isPrefixOf line || "*".toList.isPrefixOf line ||
    "#".toList.isPrefixOf line

/-- A character that ends a declaration or begins its body. -/
def isTerminator (c : Char) : Bool := c == ';' || c == '{' || c == '}'

/-- A word without the terminators it ends with. -/
def unended (word : Text) : Text := Text.dropEndWhile isTerminator word

/-- The token is a word of an expression: a reserved word or one with an equals sign. -/
def isExpressive : Token → Bool
  | .word w => w.contains '=' || NameToken.reserved.contains w
  | _ => false

/-- The token is a specifier. -/
def isSpecifier : Token → Bool
  | .word w => specifiers.contains w
  | _ => false

end Words

section Parts

/-- The tokens before the first opening parenthesis and those after it. -/
def cutAtOpen : List Token → Option (List Token × List Token)
  | [] => none
  | .openParen :: rest => some ([], rest)
  | t :: rest => (cutAtOpen rest).map fun (inside, after) => (t :: inside, after)

/-- The tokens before the parenthesis that closes `depth + 1` open ones and those after it. -/
def cutAtClose : Nat → List Token → Option (List Token × List Token)
  | _, [] => none
  | 0, .closeParen :: rest => some ([], rest)
  | depth + 1, .closeParen :: rest => (cutAtClose depth rest).map fun (inside, after) => (.closeParen :: inside, after)
  | depth, .openParen :: rest => (cutAtClose (depth + 1) rest).map fun (inside, after) => (.openParen :: inside, after)
  | depth, t :: rest => (cutAtClose depth rest).map fun (inside, after) => (t :: inside, after)

end Parts
end Signature

/-- The head of a declaration: a callable name before the first parenthesis that does not begin the line, and no
expression before the name. -/
def DeclarationHead.ofTokens? : List Token → Option DeclarationHead
  | [] => none
  | first :: tokens =>
    match Signature.cutAtOpen tokens with
    | none => none
    | some (inside, rest) =>
      match (first :: inside).getLast? with
      | some (.word name) =>
        let lead := (first :: inside).dropLast
        if NameToken.isCallable name && !lead.any Signature.isExpressive then some ⟨lead, name, rest⟩ else none
      | _ => none

namespace Signature

section Reading

/-- What the name and the token before it say about the form: `~` makes a destructor, and a scope with the name
itself a constructor, be it written in the name token or right before it. -/
def formOf (lead : List Token) (name : Text) : MethodForm :=
  let segments := NameToken.segments (NameToken.unmarked name)
  let last := segments.getLastD []
  if last.head? = some '~' then .destructor
  else if segments.dropLast.getLast? = some last then .constructor
  else match lead.getLast? with
    | some (.word w) =>
      match "::".toList.isSuffixOf? w with
      | some scope => if NameToken.last scope = last then .constructor else .method
      | none => .method
    | _ => .method

/-- The tokens right before the name that are no specifiers, with the markers of the name. -/
def returnTypeOf (lead : List Token) (name : Text) : Text :=
  let type := Token.join (lead.reverse.takeWhile fun t => !isSpecifier t).reverse
  if type.isEmpty then [] else type ++ NameToken.markers name

/-- The qualifiers read off the tokens after the parameter list, up to the first token that is none. -/
def readQualifiers : List Token → List Token
  | .word w :: rest =>
    let word := unended w
    if qualifiers.contains word then .word word :: readQualifiers rest
    else match word with
      | '=' :: c :: value =>
        if definitions.contains (c :: value) then .word ['='] :: .word (c :: value) :: readQualifiers rest else []
      | ['='] =>
        match rest with
        | .word v :: rest =>
          if definitions.contains (unended v) then .word ['='] :: .word (unended v) :: readQualifiers rest else []
        | _ => []
      | _ => []
  | _ => []

/-- The semicolon or brace that a line ends with. -/
def endMark (line : Text) : Text :=
  match line.getLast? with
  | some c => if c = ';' ∨ c = '}' then [c] else []
  | none => []

/-- The signature that a line declares. -/
def ofLine? (line : Text) : Option Signature :=
  let stripped := Text.trim line
  if stripped.isEmpty || isRemark stripped then none
  else match DeclarationHead.ofTokens? (Token.scan stripped) with
    | none => none
    | some head =>
      match cutAtClose 0 head.rest with
      | none => none
      | some (inside, after) =>
        let form := formOf head.lead head.name
        let tokens :=
          head.lead ++ [.word head.name, .openParen] ++ inside ++ [.closeParen] ++ readQualifiers after
        some {
          returnType := if form = .method then returnTypeOf head.lead head.name else []
          name := head.name
          form := form
          text := Token.join tokens ++ endMark stripped }

/-- The name without scopes and markers. -/
def plainName (s : Signature) : Text := NameToken.plain s.name

end Reading

section Continuation

/-- The number of opening parentheses less the number of closing ones. -/
def parenSurplus (s : Text) : Int := (s.count '(' : Int) - s.count ')'

/-- The line begins a declaration whose parameter list goes on in the next line. -/
def beginsDeclaration (line : Text) : Bool :=
  let stripped := Text.trim line
  !stripped.isEmpty && !isRemark stripped && 0 < parenSurplus stripped &&
    (DeclarationHead.ofTokens? (Token.scan stripped)).isSome

end Continuation
end Signature
end DocLint
