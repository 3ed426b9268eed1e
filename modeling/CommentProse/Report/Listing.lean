import CommentProse.Report.Issue
import CommentProse.Report.Json
import CommentProse.SyntaxTree

/-! # Listings

What the command line prints: passages with their places, as text or as JSON; the spans of every
line; the syntax tree of every comment; and the issues. Each listing is a list of lines.
-/

namespace CommentProse

namespace Origin

/-- The name of a section in listings. -/
def label : Origin → String
  | .description => "description"
  | .tag _ name => "@" ++ name

end Origin

namespace Passage

/-- A passage with the place of its first character. -/
def listing (file : String) (table : LineTable) (passage : Passage) : String :=
  let position := table.position passage.start
  s!"{file}:{position.line}:{position.column}: " ++ String.ofList passage.text

/-- A passage as a record. -/
def record (table : LineTable) (passage : Passage) : Json.Record :=
  let position := table.position passage.start
  [("block", .number passage.block), ("ordinal", .number passage.ordinal),
    ("section", .string passage.origin.label.toList), ("line", .number position.line),
    ("column", .number position.column), ("start", .number passage.start),
    ("text", .string passage.text)]

end Passage

/-- The passages of all comments, in order. -/
def passagesIn (comments : List FoundComment) : List Passage :=
  comments.flatMap fun found => (found.analysis?.map Analysis.passages).getD []

namespace SpannedLine

/-- A span with its text in quotes. -/
def spanListing (line : SpannedLine) (span : Span) : String :=
  span.role.name ++ " " ++ String.ofList (Quoted.encode (line.textOf span).text)

/-- The spans of the line with this index; the index is set to the right of three columns. -/
def listing (line : SpannedLine) (index : Nat) : String :=
  let number := toString index
  "  " ++ String.ofList (List.replicate (3 - number.length) ' ') ++ number ++ ": " ++
    ", ".intercalate (line.spans.map line.spanListing)

end SpannedLine

namespace FoundComment

/-- The lines of a comment with their spans. -/
def spanListing (table : LineTable) (found : FoundComment) : List String :=
  let position := table.position found.block.start
  s!"Comment at {position.line}:{position.column}" ::
    match found.outcome with
    | .error _ => ["  (malformed)"]
    | .ok analysis => analysis.lines.zipIdx.map fun (line, index) => line.listing index

end FoundComment

namespace Element

/-- The width from which on the text of a token is shortened. -/
def longText : Nat := 25

/-- The text of a token as far as it is listed: all of it if it is short, else the part up to the
first boundary between characters from the twenty-first byte on. -/
def shortened (text : List Char) : List Char :=
  if width text < longText then text
  else
    let cuts := [21, 22, 23, 24].map (takeBytes · text)
    let kept := (cuts.zip [21, 22, 23, 24]).find? fun (cut, size) => width cut = size
    (kept.map Prod.fst).getD text ++ " ...".toList

def rangeListing (range : ByteRange) : String := s!"@{range.start}..{range.stop}"

/-- Two spaces for each level. -/
def indent (depth : Nat) : String := String.ofList (List.replicate (2 * depth) ' ')

mutual

/-- A tree in lines, its root at this depth. -/
def listing (depth : Nat) : Element → List String
  | .token kind range text =>
    [indent depth ++ kind.name ++ rangeListing range ++ " " ++
      String.ofList (Quoted.encode (shortened text))]
  | .node kind range children =>
    (indent depth ++ kind.name ++ rangeListing range) :: listingAll (depth + 1) children

/-- Trees in lines, one after the other. -/
def listingAll (depth : Nat) : List Element → List String
  | [] => []
  | element :: elements => element.listing depth ++ listingAll depth elements

end

end Element

namespace Analysis

/-- The syntax tree in lines, with an empty line behind it. -/
def treeListing (analysis : Analysis) : List String :=
  ((SyntaxTree.ofAnalysis analysis).place 0).listing 0 ++ [""]

end Analysis

namespace Issue

/-- The name of a severity in its colour: red for errors, yellow for warnings. -/
def colouredSeverity : Severity → String
  | .error => "\x1b[31merror\x1b[0m"
  | .warning => "\x1b[33mwarning\x1b[0m"

def listing (file : String) (issue : Issue) : String :=
  colouredSeverity issue.severity ++ "[" ++ issue.code ++ "]: " ++ issue.message ++
    s!" at {file}:{issue.position.line}:{issue.position.column}"

/-- The issues of a file and their number, or nothing if there are none. -/
def listingAll (file : String) (issues : List Issue) : List String :=
  if issues.isEmpty then []
  else issues.map (listing file) ++ ["", s!"Found {issues.length} issue(s)"]

end Issue

end CommentProse
