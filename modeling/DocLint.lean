import DocLint.Main
import DocLint.FileTree.Build
import DocLint.FileTree.Replacement
import DocLint.Proofs.Edit
import DocLint.Proofs.FileHeader.Repetition
import DocLint.Proofs.Method.Pairing
import DocLint.Proofs.Compliance.Advice
import DocLint.Proofs.Compliance.Quotation
import DocLint.Proofs.Run
import DocLint.Proofs.FileHeader.Rounds
import DocLint.Proofs.Review
import DocLint.Proofs.FileTree.Joined
import DocLint.Proofs.Text.Bytes
import DocLint.Proofs.FileTree.Discovery
import DocLint.Proofs.Method.Hidden
import DocLint.Proofs.Finding
import DocLint.Proofs.Signature.NameToken
import DocLint.Proofs.Signature.Grammar
import DocLint.Proofs.Signature.Form
import DocLint.Proofs.FileTree.LastName
import DocLint.Proofs.FileTree.Replacement
import DocLint.Proofs.FileTree.Crossing
import DocLint.Proofs.Signature.Reread
import DocLint.Proofs.Parameter.InStep
import DocLint.Proofs.Parameter.Declarator
import DocLint.Proofs.Parameter.Enclosed
import DocLint.Proofs.Signature.VoidResult
import DocLint.Proofs.Method.Ending
import DocLint.Proofs.Method.Block
import DocLint.Proofs.FileHeader.Content
import DocLint.Proofs.Text.Occurrence
import DocLint.Proofs.FileHeader.TagCount
import DocLint.Proofs.IncludeGuard
import DocLint.Proofs.FileHeader.FileTag
import DocLint.Proofs.Position.Access
import DocLint.Proofs.Console.Emphasis
import DocLint.Proofs.Position.Highlight
import DocLint.Proofs.Position.Parameter
import DocLint.Proofs.Position.Signature
import DocLint.Proofs.Position.Header
import DocLint.Proofs.Position.Method
