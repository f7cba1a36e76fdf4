import DocLint.Path

/-!
# Roles of files

A file is a header file or an implementation file by its extension, compared exactly; files with any other name are
left alone.
-/

namespace DocLint

/-- What a recognized file holds: declarations to include, or their implementation. -/
inductive FileRole
  | header
  | implementation
  deriving DecidableEq, Repr

namespace FileRole

/-- Extensions of header files. -/
def headerExtensions : List Text := ["hpp".toList, "hh".toList, "hxx".toList, "h".toList]

/-- Extensions of implementation files. -/
def implementationExtensions : List Text := ["cpp".toList, "cc".toList, "cxx".toList]

/-- The role of the file at a path, or nothing when the file is not checked. -/
def ofPath? (path : Path) : Option FileRole :=
  match path.extension? with
  | none => none
  | some extension =>
    if extension ∈ headerExtensions then some .header
    else if extension ∈ implementationExtensions then some .implementation
    else none

end FileRole
end DocLint
