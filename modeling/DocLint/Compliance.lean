import DocLint.FileRole
import DocLint.Finding
import DocLint.Method
import DocLint.Signature.VoidResult

/-!
# Documentation of methods

Every method needs a documentation comment, in the comment an entry `@param name[type] - ...` for every parameter,
and, if it returns a value, an entry `@return [type] - ...`. Types have to be written as the signature has them.
-/

namespace DocLint
namespace Compliance

section Entries

/-- The text begins with the entry `@tag subject[type] -`. -/
def beginsWithEntry (tag subject type s : Text) : Bool :=
  match ('@' :: tag).isPrefixOf? s with
  | none => false
  | some rest =>
    !(Text.leadingBlanks rest).isEmpty &&
      match (subject ++ ['['] ++ type ++ [']']).isPrefixOf? (Text.trimStart rest) with
      | none => false
      | some behind => (Text.trimStart behind).head? == some '-'

/-- The text has the entry `@tag subject[type] -` somewhere. -/
def hasEntry (tag subject type : Text) : Text → Bool
  | [] => false
  | c :: rest => beginsWithEntry tag subject type (c :: rest) || hasEntry tag subject type rest

/-- The text has an entry for the parameter. -/
def hasParam (p : Parameter) (doc : Text) : Bool := hasEntry "param".toList p.name p.type doc

/-- The text has an entry for the return type. -/
def hasReturn (type doc : Text) : Bool := hasEntry "return".toList [] type doc

end Entries

section Methods

/-- The declaration is that of a constructor: by its form, or in a header file as a method without parameters that is
named like the file. -/
def constructs (path : Path) (d : Declaration) : Bool :=
  d.signature.form = .constructor ||
    (FileRole.ofPath? path == some .header &&
      ((Parameter.list? d.signature.text).any fun list => (Text.trim list).isEmpty) &&
      path.stem? == some d.signature.plainName)

/-- The method returns a value. -/
def returnsValue (s : Signature) : Bool :=
  s.form = .method && !s.returnType.isEmpty && !Signature.declaresVoid s.text

/-- The findings of the parameters that the comment does not document. -/
def paramFindings (path : Path) (d : Declaration) (comment : DocComment) : List Finding :=
  (d.params.filter fun p => !hasParam p comment.text).map fun p =>
    Finding.ofProblem path comment.startLine (.badParam d.signature.text p.name p.type)

/-- The finding of a returned value that the comment does not document. -/
def returnFindings (path : Path) (d : Declaration) (comment : DocComment) : List Finding :=
  if returnsValue d.signature && !constructs path d && !hasReturn d.signature.returnType comment.text then
    [Finding.ofProblem path comment.startLine (.noReturn d.signature.text d.signature.returnType)]
  else []

/-- The findings of one method. -/
def methodFindings (path : Path) (m : Method) : List Finding :=
  match m.comment with
  | none => [Finding.ofProblem path m.declaration.startLine (.undocumented m.declaration.signature.text)]
  | some comment => paramFindings path m.declaration comment ++ returnFindings path m.declaration comment

/-- The findings of the methods of a file. -/
def findings (path : Path) (methods : List Method) : List Finding := methods.flatMap (methodFindings path)

end Methods
end Compliance
end DocLint
