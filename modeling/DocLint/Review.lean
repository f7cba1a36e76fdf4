import DocLint.FileHeader
import DocLint.IncludeGuard
import DocLint.Compliance

/-!
# Review of a file's content

A review runs the checks that apply to a file by its role: the header check for every file, the guard check for header
files, and, if asked for, the check of method documentation for header files. Nothing is read or written.
-/

namespace DocLint

/-- What a run is to do. -/
structure LintOptions where
  /-- Check the documentation of methods in header files. -/
  docstrings : Bool := false
  /-- Report header edits without making them. -/
  dryRun : Bool := false
  /-- Keep the declarations that are found. -/
  list : Bool := false
  deriving DecidableEq, Repr

/-- All that is found in one content. -/
structure ContentReview where
  header : HeaderReview
  /-- Findings on the header, the guard and the methods, in this order. -/
  findings : List Finding
  /-- The methods, if the options need them. -/
  methods : List Method
  deriving DecidableEq, Repr

namespace ContentReview

/-- The review of the content of a file. -/
def ofContent (path : Path) (role : FileRole) (options : LintOptions) (content : Text) : ContentReview :=
  let header := HeaderReview.ofContent path content
  let lines := content.lines
  let guard := if role = .header then IncludeGuard.findings path lines else []
  let checksMethods := options.docstrings && role = .header
  let methods := if checksMethods || options.list then Method.ofLines lines else []
  { header := header
    findings := header.findings ++ guard ++ (if checksMethods then Compliance.findings path methods else [])
    methods := methods }

end ContentReview
end DocLint
