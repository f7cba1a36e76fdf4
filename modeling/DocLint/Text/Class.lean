import DocLint.Text
import DocLint.Text.Ranges

/-!
# Classes of characters

The classes that names and words are read with. Below 128 a class is a short test; above, it is looked up in the
tables of character properties. Names may have the letters and numbers of the latest edition of the tables, words only
those of the edition before it.
-/

namespace DocLint
namespace Text

/-- A letter: a character with the property `Alphabetic`. -/
def isLetter (c : Char) : Bool :=
  if c.toNat < 128 then c.isAlpha else alphabetic.holds c

/-- A letter or a number of any kind. -/
def isLetterOrNumber (c : Char) : Bool :=
  if c.toNat < 128 then c.isAlphanum
  else alphabetic.holds c || decimalNumber.holds c || otherNumber.holds c

/-- A joiner: a character with the property `Join_Control`. -/
def isJoiner (c : Char) : Bool := c.toNat == 0x200C || c.toNat == 0x200D

/-- A word character: a letter, mark, decimal number, connector or joiner that is not new in the latest edition. -/
def isWordChar (c : Char) : Bool :=
  if c.toNat < 128 then c.isAlphanum || c == '_'
  else (alphabetic.holds c || mark.holds c || decimalNumber.holds c || connector.holds c || isJoiner c) &&
    !newest.holds c

/-- The word that a text begins with: its longest beginning of word characters. -/
def leadingWord (s : Text) : Text := s.takeWhile isWordChar

end Text
end DocLint
