/-!
# Text

Text is a list of characters. This module has the operations that every reader of source lines shares: blanks and
trimming (`trim`), markers and what stands before them, words in any case (`dropWord?`), and numbers as text
(`ofNat`).
-/

namespace DocLint

/-- A text is a list of characters. -/
abbrev Text := List Char

namespace Text

section Blanks

/-- White space: the characters with the property `White_Space`. -/
def isBlank (c : Char) : Bool :=
  let n := c.toNat
  (0x9 ≤ n && n ≤ 0xD) || n == 0x20 || n == 0x85 || n == 0xA0 || n == 0x1680 || (0x2000 ≤ n && n ≤ 0x200A) ||
    n == 0x2028 || n == 0x2029 || n == 0x202F || n == 0x205F || n == 0x3000

/-- The blanks a text begins with. -/
def leadingBlanks (s : Text) : Text := s.takeWhile isBlank

/-- A text without the blanks it begins with. -/
def trimStart (s : Text) : Text := s.dropWhile isBlank

/-- A text without its longest ending of characters in `p`. -/
def dropEndWhile (p : Char → Bool) (s : Text) : Text := (s.reverse.dropWhile p).reverse

/-- A text without the blanks it ends with. -/
def trimEnd (s : Text) : Text := dropEndWhile isBlank s

/-- A text without the blanks around it. -/
def trim (s : Text) : Text := trimEnd (trimStart s)

/-- A text without any of its blanks. -/
def squeeze (s : Text) : Text := s.filter fun c => !isBlank c

end Blanks

section Markers

/-- The text holds `marker` somewhere. -/
def occursIn (marker : Text) : Text → Bool
  | [] => marker.isEmpty
  | c :: rest => marker.isPrefixOf (c :: rest) || occursIn marker rest

/-- The text before the first character `mark`, or the whole text if there is none. -/
def before (mark : Char) (s : Text) : Text := s.takeWhile (· != mark)

/-- The text without a final `marker`. -/
def dropMarker (marker s : Text) : Text := (marker.isSuffixOf? s).getD s

/-- The texts in order, with one space between neighbours. -/
def spaced (lines : List Text) : Text := List.intercalate [' '] lines

/-- Puts a character before the first text of a list. -/
def consHead (c : Char) : List Text → List Text
  | [] => [[c]]
  | s :: rest => (c :: s) :: rest

end Markers

section Letters

/-- Equality up to the case of the letters `A` to `Z`. -/
def sameIgnoringCase (s t : Text) : Bool := s.map Char.toLower == t.map Char.toLower

/-- The text after `word`, when the text begins with it, whatever the case of the letters `A` to `Z`. -/
def dropWord? : (word : Text) → Text → Option Text
  | [], s => some s
  | _ :: _, [] => none
  | w :: ws, c :: rest => if c.toLower == w.toLower then dropWord? ws rest else none

/-- How many bytes the text has in UTF-8. -/
def byteCount : Text → Nat
  | [] => 0
  | c :: rest => c.utf8Size + byteCount rest

/-- A number in decimal digits. -/
def ofNat (n : Nat) : Text := Nat.toDigits 10 n

end Letters

end Text
end DocLint
