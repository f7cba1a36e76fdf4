import DocLint.Text.Class

/-!
# Methods without a value

`Signature.declaresVoid` tells from the text of a signature alone that the method returns nothing: after the specifiers
that it begins with comes the word `void`, then the name and the parameter list. A type that merely contains `void`, such
as `void*`, does return something.
-/

namespace DocLint
namespace Signature

/-- Specifiers that may stand before the word `void`. -/
def voidSpecifiers : List Text :=
  ["inline".toList, "virtual".toList, "static".toList, "explicit".toList, "constexpr".toList, "extern".toList,
   "friend".toList]

/-- The text after `word` and the blanks behind it, when it begins with both. -/
def afterWord? (word s : Text) : Option Text :=
  match word.isPrefixOf? s with
  | some (c :: rest) => if Text.isBlank c then some (Text.trimStart rest) else none
  | _ => none

/-- The text after the specifiers it begins with. At most `fuel` of them are dropped. -/
def dropSpecifiers : (fuel : Nat) → Text → Text
  | 0, s => s
  | fuel + 1, s =>
    match voidSpecifiers.findSome? fun word => afterWord? word s with
    | some rest => dropSpecifiers fuel rest
    | none => s

/-- A character of a scoped method name. -/
def isNameChar (c : Char) : Bool := c == '~' || c == ':' || Text.isWordChar c

/-- The text begins with a method name and an opening parenthesis. -/
def beginsWithCall (s : Text) : Bool :=
  !(s.takeWhile isNameChar).isEmpty && (Text.trimStart (s.dropWhile isNameChar)).head? == some '('

/-- The return type before the name is exactly `void`. -/
def declaresVoid (signature : Text) : Bool :=
  let s := Text.trim signature
  match afterWord? "void".toList (dropSpecifiers s.length s) with
  | some rest => beginsWithCall rest
  | none => false

end Signature
end DocLint
