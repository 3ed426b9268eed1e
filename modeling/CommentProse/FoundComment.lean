import CommentProse.Analysis

/-! # The comments of a source

Every documentation comment of a source is analysed on its own: a comment with faulty delimiters
does not keep the others from being read.
-/

namespace CommentProse

/-- A comment that was found in a source, and its analysis. -/
structure FoundComment where
  /-- The text of the comment, in place. -/
  block : Fragment
  outcome : Except DelimiterFault Analysis

namespace FoundComment

/-- Finds and analyses every comment of a source. -/
def all (settings : Settings) (source : List Char) : List FoundComment :=
  (docComments source).map fun block => ⟨block, Analysis.ofBlock settings block⟩

/-- The analysis of a comment without fault. -/
def analysis? (found : FoundComment) : Option Analysis := found.outcome.toOption

end FoundComment

end CommentProse
