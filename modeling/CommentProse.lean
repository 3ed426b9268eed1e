import CommentProse.Main
import CommentProse.Proofs.Delimiters
import CommentProse.Proofs.LexicalGrammar
import CommentProse.Proofs.IssueOrder
import CommentProse.Proofs.ArgumentCut
import CommentProse.Proofs.SyntaxTree
import CommentProse.Proofs.Parting
import CommentProse.Proofs.RoundTrip
import CommentProse.Proofs.Slicing
import CommentProse.Proofs.Validity
import CommentProse.Proofs.Seams
import CommentProse.Proofs.Regrouping
import CommentProse.Proofs.OffsetList
import CommentProse.Proofs.Resumption
import CommentProse.Proofs.ReferenceExtents
import CommentProse.Proofs.BrokenTarget
import CommentProse.Proofs.BrokenTag
import CommentProse.Proofs.NormalForm
import CommentProse.Proofs.FailSafe
import CommentProse.Proofs.Isolation
import CommentProse.Proofs.Rewrapping
import CommentProse.Proofs.LiteralEnds
import CommentProse.Proofs.PlainSections
import CommentProse.Proofs.BlankLines
import CommentProse.Proofs.ElementExtents
import CommentProse.Proofs.Markup.TagForms
import CommentProse.Proofs.Decomposition
import CommentProse.Proofs.TagGrammar
import CommentProse.Proofs.Sections
import CommentProse.Proofs.Relabelling
import CommentProse.Proofs.Positions
import CommentProse.Proofs.Precedence
import CommentProse.Proofs.OpenNesting
import CommentProse.Files.Tree
