import DocLint.Text

/-!
# Tokens of a declaration line

A line is read as words between blanks, with the two parentheses and the comma as tokens of their own (`Token.scan`).
`Token.join` writes tokens back with one spacing: no space before `(`, `)` and `,` and none after `(`. Joining loses
only spacing, so scanning a joined list gives the list back.
-/

namespace DocLint

/-- A token of a line. -/
inductive Token
  | openParen
  | closeParen
  | comma
  | word (text : Text)
  deriving DecidableEq, Repr

namespace Token

/-- The token as it is written. -/
def text : Token → Text
  | openParen => ['(']
  | closeParen => [')']
  | comma => [',']
  | word text => text

/-- The token that a single character is. -/
def ofChar? : Char → Option Token
  | '(' => some openParen
  | ')' => some closeParen
  | ',' => some comma
  | _ => none

/-- A run of characters as a token, unless it is empty. -/
def ofRun (run : Text) : List Token := if run.isEmpty then [] else [word run]

/-- The tokens of a line whose first word begins with `run`. -/
def scanFrom (run : Text) : Text → List Token
  | [] => ofRun run
  | c :: rest =>
    if Text.isBlank c then ofRun run ++ scanFrom [] rest
    else match ofChar? c with
      | some token => ofRun run ++ token :: scanFrom [] rest
      | none => scanFrom (run ++ [c]) rest

/-- The tokens of a line. -/
def scan (line : Text) : List Token := scanFrom [] line

/-- Two neighbours are written without a space. -/
def glued (left right : Token) : Bool :=
  match left, right with
  | openParen, _ => true
  | _, word _ => false
  | _, _ => true

/-- The tokens written in order. -/
def join : List Token → Text
  | [] => []
  | [t] => t.text
  | t :: u :: rest => t.text ++ (if glued t u then [] else [' ']) ++ join (u :: rest)

end Token
end DocLint
