import DocLint.Text.Class

/-!
# Name tokens

The word before a parameter list may hold more than the name of the method: markers of a pointer or reference
before it (`*find`), and the scopes it belongs to (`Vital::max`). A scope ends with `::`; in a longer run of colons
the last two count when the name is taken from the end (`last`), the first two when the token is read from the front
(`segments`).
-/

namespace DocLint
namespace NameToken

/-- A marker of a pointer or reference type. -/
def isMarker (c : Char) : Bool := c == '*' || c == '&'

/-- The markers that a token begins with. -/
def markers (token : Text) : Text := token.takeWhile isMarker

/-- A token without the markers it begins with. -/
def unmarked (token : Text) : Text := token.dropWhile isMarker

/-- What follows the last `::` of a token. -/
def afterScope? : Text → Option Text
  | [] => none
  | c :: rest =>
    match afterScope? rest with
    | some name => some name
    | none => if c = ':' ∧ rest.head? = some ':' then some rest.tail else none

/-- The token without its scopes. -/
def last (token : Text) : Text := (afterScope? token).getD token

/-- The parts between the `::` of a token, read from the front. -/
def segments : Text → List Text
  | ':' :: ':' :: rest => [] :: segments rest
  | c :: rest => Text.consHead c (segments rest)
  | [] => [[]]

/-- The name without its scopes, then without markers. -/
def plain (token : Text) : Text := unmarked (last token)

/-- Words that look like the name in a call but never name a method. -/
def reserved : List Text :=
  ["if".toList, "for".toList, "while".toList, "switch".toList, "return".toList, "catch".toList, "sizeof".toList,
   "alignof".toList, "decltype".toList, "static_assert".toList, "throw".toList, "new".toList, "delete".toList,
   "do".toList, "else".toList]

/-- An identifier: a letter or underscore, then letters, numbers and underscores. -/
def isIdentifier : Text → Bool
  | [] => false
  | c :: rest => (Text.isLetter c || c == '_') && rest.all fun d => Text.isLetterOrNumber d || d == '_'

/-- A name without the tilde of a destructor. -/
def withoutTilde : Text → Text
  | '~' :: rest => rest
  | name => name

/-- The token can name a method: markers, scopes, perhaps a tilde, and an identifier that is not reserved. -/
def isCallable (token : Text) : Bool :=
  let name := withoutTilde (last (unmarked token))
  isIdentifier name && !reserved.contains name

end NameToken
end DocLint
