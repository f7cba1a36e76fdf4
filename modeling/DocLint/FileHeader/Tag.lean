import DocLint.Text.Class

/-!
# Tags of a header line

A header names its file, author and date with tags such as `@file`. Older spellings are still found: a plain word with
a colon (`File: a.cpp`), or a tag with a colon too many (`@file: a.cpp`). Each spelling has a reader that looks for it
at one place of a line and returns a `TagMatch`; `TagReader.pieces` goes through a line from the left and cuts it into
matches that do not overlap and the characters between them.
-/

namespace DocLint

/-- What a header tag is about. -/
inductive Tag
  | file
  | author
  | date
  deriving DecidableEq, Repr

/-- The tag as it should be written. -/
def Tag.text : Tag → Text
  | file => "@file".toList
  | author => "@author".toList
  | date => "@date".toList

/-- A tag found at a place of a line. The found text is `lead ++ written ++ gap ++ value`. -/
structure TagMatch where
  /-- The character that had to stand before the tag, if any. -/
  lead : Text
  /-- The tag as it is written, with its colon. -/
  written : Text
  tag : Tag
  /-- The blanks after the tag. -/
  gap : Text
  /-- The part of the line that had to follow. -/
  value : Text
  /-- The rest of the line. -/
  after : Text
  deriving DecidableEq, Repr

namespace TagMatch

/-- The text that was found. -/
def source (m : TagMatch) : Text := m.lead ++ m.written ++ m.gap ++ m.value

/-- The found text with the tag as it should be and `gap` after it. -/
def renewed (m : TagMatch) (gap : Text) : Text := m.lead ++ m.tag.text ++ gap ++ m.value

end TagMatch

/-- A reader looks for a spelling right at the beginning of a text; `atStart` tells whether the text is a whole line. -/
abbrev TagReader := (atStart : Bool) → Text → Option TagMatch

namespace TagReader

section Spellings

/-- Looks for what `body` reads, either at the start of the line or behind a character that is no word character and
not `barred`. -/
def afterLead (barred : List Char) (body : Text → Option TagMatch) : TagReader := fun atStart s =>
  match if atStart then body s else none with
  | some m => some m
  | none =>
    match s with
    | [] => none
    | c :: rest =>
      if Text.isWordChar c || barred.contains c then none else (body rest).map fun m => { m with lead := [c] }

/-- The word in any case, as it is written, and the text behind it. -/
def spelling? (word s : Text) : Option (Text × Text) :=
  (Text.dropWord? word s).map fun rest => (s.take word.length, rest)

/-- The word `File:` and the name behind it, which may be missing. -/
def legacyFile : TagReader := afterLead ['@', '-'] fun s =>
  (spelling? "file:".toList s).map fun (written, rest) =>
    let value := Text.trimStart rest
    ⟨[], written, .file, Text.leadingBlanks rest, value.takeWhile (!Text.isBlank ·),
      value.dropWhile (!Text.isBlank ·)⟩

/-- The word `Author:` and the first character of a name. -/
def legacyAuthor : TagReader := afterLead ['@', '-'] fun s =>
  match spelling? "author:".toList s with
  | none => none
  | some (written, rest) =>
    match Text.trimStart rest with
    | [] => none
    | c :: after =>
      if Text.isWordChar c then some ⟨[], written, .author, Text.leadingBlanks rest, [c], after⟩ else none

/-- The spellings of a date in older headers. -/
def dateWords : List Text := ["creation date:".toList, "date:".toList, "created on:".toList]

/-- One of the date words and the rest of the line, which must not be blank. -/
def legacyDate : TagReader := afterLead ['@'] fun s =>
  match dateWords.findSome? (spelling? · s) with
  | none => none
  | some (written, rest) =>
    let value := Text.trimStart rest
    if value.isEmpty then none else some ⟨[], written, .date, Text.leadingBlanks rest, value, []⟩

/-- One of the tags with a colon behind it. -/
def coloned : TagReader := fun _ s =>
  [Tag.file, Tag.date, Tag.author].findSome? fun tag =>
    match tag.text.isPrefixOf? s with
    | none => none
    | some rest =>
      match Text.trimStart rest with
      | ':' :: behind =>
        some ⟨[], tag.text ++ Text.leadingBlanks rest ++ [':'], tag, Text.leadingBlanks behind, [],
          Text.trimStart behind⟩
      | _ => none

/-- The tag `@file` in any case, blanks and a name. -/
def fileTag : TagReader := fun _ s =>
  match spelling? Tag.file.text s with
  | none => none
  | some (written, rest) =>
    let gap := Text.leadingBlanks rest
    let value := (Text.trimStart rest).takeWhile (!Text.isBlank ·)
    if gap.isEmpty || value.isEmpty then none
    else some ⟨[], written, .file, gap, value, (Text.trimStart rest).dropWhile (!Text.isBlank ·)⟩

/-- The tag `@author` in any case, blanks and a word character. -/
def authorTag : TagReader := fun _ s =>
  match spelling? Tag.author.text s with
  | none => none
  | some (written, rest) =>
    match Text.trimStart rest with
    | [] => none
    | c :: after =>
      if !(Text.leadingBlanks rest).isEmpty && Text.isWordChar c then
        some ⟨[], written, .author, Text.leadingBlanks rest, [c], after⟩
      else none

end Spellings

/-- A piece of a line: a character outside of all matches, or a match. -/
inductive Piece
  | plain (c : Char)
  | found (m : TagMatch)
  deriving DecidableEq, Repr

/-- The pieces of a text from the left. The first `skip` characters belong to a match before them. -/
def piecesFrom (reader : TagReader) : (skip : Nat) → (atStart : Bool) → Text → List Piece
  | _, _, [] => []
  | skip + 1, _, _ :: rest => piecesFrom reader skip false rest
  | 0, atStart, c :: rest =>
    match reader atStart (c :: rest) with
    | some m => .found m :: piecesFrom reader (m.source.length - 1) false rest
    | none => .plain c :: piecesFrom reader 0 false rest

/-- A line cut into matches that do not overlap, the leftmost first, and the characters between them. -/
def pieces (reader : TagReader) (line : Text) : List Piece := piecesFrom reader 0 true line

/-- The matches of a line that do not overlap, from the left. -/
def hits (reader : TagReader) (line : Text) : List TagMatch :=
  (reader.pieces line).filterMap fun
    | .found m => some m
    | .plain _ => none

/-- The line with every match replaced. -/
def replaceAll (reader : TagReader) (replacement : TagMatch → Text) (line : Text) : Text :=
  (reader.pieces line).flatMap fun
    | .found m => replacement m
    | .plain c => [c]

/-- The text with its leftmost match replaced. -/
def replaceFirstFrom (reader : TagReader) (replacement : TagMatch → Text) : (atStart : Bool) → Text → Text
  | _, [] => []
  | atStart, c :: rest =>
    match reader atStart (c :: rest) with
    | some m => replacement m ++ m.after
    | none => c :: replaceFirstFrom reader replacement false rest

/-- The line with its leftmost match replaced. -/
def replaceFirst (reader : TagReader) (replacement : TagMatch → Text) (line : Text) : Text :=
  replaceFirstFrom reader replacement true line

end TagReader
end DocLint
