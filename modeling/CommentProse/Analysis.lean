import CommentProse.Comment.Basic
import CommentProse.Comment.Outline
import CommentProse.Markup.Reading
import CommentProse.Prose.Passage

/-! # Analysing a comment

The lines of a comment are read in order, with markup carried from line to line. Open markup is
given up before a tag line, before a blank line (elements excepted) and at the end of the comment;
what it covered becomes markup after the fact. The prose that is left is put together to passages,
section by section: the description first, then each block tag.
-/

namespace CommentProse

/-- A line of a comment with its spans. -/
structure SpannedLine where
  line : CommentLine
  /-- The spans of the content, adjacent and in order. -/
  spans : List Span
deriving DecidableEq, Repr

namespace CommentLine

def tagHead? (line : CommentLine) : Option TagHead := TagHead.parse? line.content

/-- The edge at which markup from before the line is given up. -/
def edge? (line : CommentLine) : Option Edge :=
  if line.tagHead?.isSome then some .tagLine
  else if line.isBlank then some .blankLine
  else none

end CommentLine

namespace TagHead

/-- The spans of a tag line up to its prose. -/
def spans (head : TagHead) : List Span :=
  Span.ofFragment .markup head.marker ++ Span.ofFragment .tagName head.name ++
    Span.ofFragment .markup head.gap ++
    (head.argument.map (Span.ofFragment .argument)).getD []

end TagHead

namespace OpenMarkup

/-- Reads the content of a line; on a tag line only the part behind the head is prose. -/
def readContent (settings : Settings) (markup : OpenMarkup) (line : CommentLine) :
    List Span × OpenMarkup :=
  match line.tagHead? with
  | some head =>
    let (spans, last) := markup.readLine settings head.body
    (head.spans ++ spans, last)
  | .none => markup.readLine settings line.content

/-- What is given up before a line. -/
def unfinishedBefore (markup : OpenMarkup) (line : CommentLine) : List Unfinished :=
  (line.edge?.map markup.unfinished).getD []

/-- What is still open when a line begins. -/
def openAt (markup : OpenMarkup) (line : CommentLine) : OpenMarkup :=
  (line.edge?.map markup.closed).getD markup

/-- Reads the lines up to the end of the comment: the spans of each, and all unfinished markup in
the order in which it is given up. -/
def readLines (settings : Settings) (markup : OpenMarkup) :
    List CommentLine → List (List Span) × List Unfinished
  | [] => ([], markup.unfinished .commentEnd)
  | line :: lines =>
    let (spans, last) := (markup.openAt line).readContent settings line
    let (later, unfinished) := readLines settings last lines
    (spans :: later, markup.unfinishedBefore line ++ unfinished)

end OpenMarkup

namespace Unfinished

/-- Makes markup of everything that unfinished markup covers. -/
def relabel (unfinished : List Unfinished) (spans : List Span) : List Span :=
  unfinished.foldl (fun spans item => Span.relabelAll item.range spans) spans

end Unfinished

namespace SpannedLine

def tagHead? (line : SpannedLine) : Option TagHead := line.line.tagHead?

/-- The text of a span of the line, in place. -/
def textOf (line : SpannedLine) (span : Span) : Fragment :=
  line.line.content.slice span.range

/-- What a span contributes to the prose of a source in which the comment begins at `offset`. -/
def proseItem? (offset : Nat) (line : SpannedLine) (span : Span) : Option ProseItem :=
  if span.divides then some .division
  else if span.role = .prose then some (.text ((line.textOf span).shift offset))
  else none

/-- What a line contributes to the prose. -/
def proseItems (settings : Settings) (offset : Nat) (line : SpannedLine) : List ProseItem :=
  if line.line.isBlank then if settings.blankLinesDivide then [.division] else []
  else line.spans.filterMap (line.proseItem? offset) ++ [.lineEnd (offset + line.line.stop)]

end SpannedLine

namespace Outline

/-- The sections of a comment, each with where its prose comes from. -/
def sections {α : Type} (outline : Outline α) : List (Origin × List α) :=
  (.description, outline.description) ::
    outline.tags.zipIdx.map fun (tag, index) => (.tag index tag.name, tag.lines)

end Outline

/-- What is known of a comment. Ranges count from the start of the comment, the provenance of a
passage from the start of the source. -/
structure Analysis where
  /-- The source offset of the comment. -/
  offset : Nat
  comment : DocComment
  lines : List SpannedLine
  /-- The markup that is never closed, in the order in which it is given up. -/
  unfinished : List Unfinished
  passages : List Passage
deriving DecidableEq, Repr

namespace Analysis

/-- The passages of the prose in spanned lines. -/
def passagesOf (settings : Settings) (offset : Nat) (lines : List SpannedLine) : List Passage :=
  let outline := Outline.ofLines SpannedLine.tagHead? lines
  let drafts := outline.sections.flatMap fun (origin, lines) =>
    (ProseItem.passages (lines.flatMap (·.proseItems settings offset))).map (origin, ·)
  drafts.zipIdx.map fun ((origin, text, provenance), ordinal) =>
    ⟨offset, ordinal, origin, text, provenance⟩

/-- Analyses a comment that was found in a source. -/
def ofBlock (settings : Settings) (block : Fragment) : Except DelimiterFault Analysis :=
  match DocComment.parse block.text with
  | .error fault => .error fault
  | .ok comment =>
    let (spans, unfinished) := OpenMarkup.none.readLines settings comment.lines
    let lines := (comment.lines.zip spans).map fun (line, spans) =>
      ⟨line, Unfinished.relabel unfinished spans⟩
    .ok ⟨block.start, comment, lines, unfinished, passagesOf settings block.start lines⟩

/-- The lines by section. -/
def outline (analysis : Analysis) : Outline SpannedLine :=
  .ofLines SpannedLine.tagHead? analysis.lines

/-- The index of the block tag of each line, or none in the description. -/
def sectionIndices (analysis : Analysis) : List (Option Nat) :=
  analysis.outline.sections.flatMap fun (origin, lines) =>
    lines.map fun _ =>
      match origin with
      | .description => none
      | .tag index _ => some index

end Analysis

end CommentProse
