import DocLint.FileHeader.Tag

/-!
# Renewal of a header line

Four passes bring the tags of a line into shape, each on what the one before left: legacy file tags that name this
file, tags with a colon, legacy author tags, and the first legacy date where no date tag stands yet
(`Renewal.ofLine`). Text other than tags, their colons and missing blanks is left alone. A legacy tag that names
another file is kept and reported.
-/

namespace DocLint

/-- What becomes of a header line. -/
structure Renewal where
  /-- The line after the passes. -/
  text : Text
  /-- The name of another file that a legacy tag of the line has. -/
  wrongName : Option Text
  deriving DecidableEq, Repr

namespace Renewal

/-- A file name as a header writes it: a comment end right behind it is no part of it. -/
def fileNameOf (token : Text) : Text := Text.dropMarker "*/".toList token

/-- The blanks that were found, or one space if there were none. -/
def orSpace (gap : Text) : Text := if gap.isEmpty then [' '] else gap

/-- Legacy file tags that name `fileName` become tags. -/
def renewFile (fileName line : Text) : Text :=
  TagReader.legacyFile.replaceAll
    (fun m => if fileNameOf m.value = fileName then m.renewed (orSpace m.gap) else m.source) line

/-- The colon behind a tag goes. At the end of the line no blank is added for it. -/
def dropColons (line : Text) : Text :=
  TagReader.coloned.replaceAll (fun m => m.renewed (if m.after.isEmpty then m.gap else orSpace m.gap)) line

/-- Legacy author tags become tags. -/
def renewAuthor (line : Text) : Text :=
  TagReader.legacyAuthor.replaceAll (fun m => m.renewed (orSpace m.gap)) line

/-- The first legacy date becomes a tag, unless the line has a date tag. -/
def renewDate (line : Text) : Text :=
  if Text.occursIn Tag.date.text line then line
  else TagReader.legacyDate.replaceFirst (fun m => m.renewed [' ']) line

/-- The first name of another file in the legacy file tags of a line. -/
def wrongNameOf (fileName line : Text) : Option Text :=
  ((TagReader.legacyFile.hits line).find? fun m => fileNameOf m.value ≠ fileName).map (·.value)

/-- The renewal of a header line of the file `fileName`. -/
def ofLine (fileName line : Text) : Renewal :=
  ⟨renewDate (renewAuthor (dropColons (renewFile fileName line))), wrongNameOf fileName line⟩

end Renewal
end DocLint
