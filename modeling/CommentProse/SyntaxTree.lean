import CommentProse.Analysis

/-! # Syntax trees

The syntax tree of a comment has a node for the description, one for each block tag and one for
each line; its tokens are the delimiters, margins, spans and line breaks. Empty tokens are left
out. A tree is built without offsets of its own: `SyntaxTree.place` lays its tokens out one after
the other, so the offsets of an `Element` follow from the texts before it.
-/

namespace CommentProse

inductive TokenKind where
  | opener
  | closer
  | margin
  | lineBreak
  | span (role : Role)
  /-- The blanks after the closer. -/
  | trailing
deriving DecidableEq, Repr

def TokenKind.name : TokenKind → String
  | .opener => "COMMENT_OPEN"
  | .closer => "COMMENT_CLOSE"
  | .margin => "LINE_PREFIX"
  | .lineBreak => "NEWLINE"
  | .span .prose => "PROSE"
  | .span .markup => "MARKUP"
  | .span .tagName => "TAG_NAME"
  | .span .argument => "TAG_ARG"
  | .trailing => "TRAILING"

inductive NodeKind where
  | comment
  | description
  | blockTag
  | line
deriving DecidableEq, Repr

def NodeKind.name : NodeKind → String
  | .comment => "DOC_COMMENT"
  | .description => "DESCRIPTION"
  | .blockTag => "BLOCK_TAG"
  | .line => "LINE"

/-- A tree of tokens, each with the place in the comment that it was taken from. -/
inductive SyntaxTree where
  | token (kind : TokenKind) (source : Fragment)
  | node (kind : NodeKind) (children : List SyntaxTree)

/-- A tree whose nodes and tokens have their ranges. -/
inductive Element where
  | token (kind : TokenKind) (range : ByteRange) (text : List Char)
  | node (kind : NodeKind) (range : ByteRange) (children : List Element)

def Element.range : Element → ByteRange
  | .token _ range _ => range
  | .node _ range _ => range

namespace SyntaxTree

mutual

/-- The tokens of a tree, from left to right. -/
def tokens : SyntaxTree → List (TokenKind × Fragment)
  | .token kind source => [(kind, source)]
  | .node _ children => tokensOfAll children

/-- The tokens of trees, from left to right. -/
def tokensOfAll : List SyntaxTree → List (TokenKind × Fragment)
  | [] => []
  | tree :: trees => tree.tokens ++ tokensOfAll trees

end

/-- The text of a tree. -/
def text (tree : SyntaxTree) : List Char := tree.tokens.flatMap fun token => token.2.text

mutual

/-- Lays a tree out from `start` on. -/
def place (start : Nat) : SyntaxTree → Element
  | .token kind source => .token kind ⟨start, start + width source.text⟩ source.text
  | .node kind children =>
    let elements := placeAll start children
    .node kind ⟨start, (elements.getLast?.map (·.range.stop)).getD start⟩ elements

/-- Lays trees out one after the other, from `start` on. -/
def placeAll (start : Nat) : List SyntaxTree → List Element
  | [] => []
  | tree :: trees =>
    let element := tree.place start
    element :: placeAll element.range.stop trees

end

/-- A token of this kind, unless it is empty. -/
def ofFragment (kind : TokenKind) (source : Fragment) : List SyntaxTree :=
  if source.isEmpty then [] else [.token kind source]

/-- The line feed of a line with a carriage return before it. A carriage return that is followed
by the closer is no line break, and in no token. -/
def lineBreak (line : CommentLine) : List SyntaxTree :=
  if line.terminator.getLast? = some '\n' then [.token .lineBreak ⟨line.stop, line.terminator⟩]
  else []

/-- The tree of a line. -/
def ofLine (line : SpannedLine) : SyntaxTree :=
  .node .line <|
    ofFragment .margin line.line.marginFragment ++
      line.spans.flatMap (fun span => ofFragment (.span span.role) (line.textOf span)) ++
      lineBreak line.line

/-- The tree of the description, unless it has no lines. -/
def ofDescription (lines : List SpannedLine) : List SyntaxTree :=
  if lines.isEmpty then [] else [.node .description (lines.map ofLine)]

/-- The tree of a comment. -/
def ofAnalysis (analysis : Analysis) : SyntaxTree :=
  .node .comment <|
    ofFragment .opener DocComment.openerFragment ++
      ofDescription analysis.outline.description ++
      analysis.outline.tags.map (fun tag => .node .blockTag (tag.lines.map ofLine)) ++
      ofFragment .closer analysis.comment.closerFragment ++
      ofFragment .trailing analysis.comment.trailingFragment

end SyntaxTree

end CommentProse
