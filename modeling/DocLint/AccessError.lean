import DocLint.Text

/-!
# Failed accesses

Why a file or directory could not be used, and the words in which that is reported.
-/

namespace DocLint

/-- Why a file or directory could not be used. -/
inductive AccessError
  | notFound
  | notDirectory
  | isDirectory
  | alreadyExists
  | tooManyLinks
  /-- A name or a path is longer than the system takes. -/
  | nameTooLong
  /-- A path holds the character of code 0. -/
  | nulInName
  | notText
  /-- Any other failure, in the system's words. -/
  | other (reason : Text)
  deriving DecidableEq, Repr

/-- The system's words for a failed access. -/
def AccessError.reason : AccessError → Text
  | notFound => "No such file or directory (os error 2)".toList
  | notDirectory => "Not a directory (os error 20)".toList
  | isDirectory => "Is a directory (os error 21)".toList
  | alreadyExists => "File exists (os error 17)".toList
  | tooManyLinks => "Too many levels of symbolic links (os error 40)".toList
  | nameTooLong => "File name too long (os error 36)".toList
  | nulInName => "file name contained an unexpected NUL byte".toList
  | notText => "stream did not contain valid UTF-8".toList
  | other reason => reason

end DocLint
