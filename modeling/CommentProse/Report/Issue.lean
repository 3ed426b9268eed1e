import CommentProse.FoundComment
import CommentProse.Text.LineTable

/-! # Issues

An issue tells the user what is wrong with a comment and where in the source file: faulty
delimiters are errors, unfinished markup is a warning.
-/

namespace CommentProse

inductive Severity where
  | error
  | warning
deriving DecidableEq, Repr

def Severity.name : Severity → String
  | .error => "error"
  | .warning => "warning"

/-- Something wrong with a comment, with its place in the source. -/
structure Issue where
  severity : Severity
  code : String
  message : String
  position : Position
  /-- The range in the source, as far as 32 bits reach. -/
  range : ByteRange
deriving DecidableEq, Repr

namespace Issue

/-- The largest offset that an issue reports. -/
def maxOffset : Nat := 0xffffffff

/-- An issue at a range of the source. -/
def place (table : LineTable) (severity : Severity) (code message : String) (range : ByteRange) :
    Issue where
  severity := severity
  code := code
  message := message
  position := table.position range.start
  range := ⟨min range.start maxOffset, min range.stop maxOffset⟩

/-- The issue for a comment at `offset` with faulty delimiters. -/
def ofFault (table : LineTable) (offset : Nat) (fault : DelimiterFault) : Issue :=
  place table .error fault.code fault.message
    (ByteRange.shift offset ⟨fault.offset, fault.offset⟩)

/-- The issue for unfinished markup in a comment at `offset`. -/
def ofUnfinished (table : LineTable) (offset : Nat) (unfinished : Unfinished) : Issue :=
  place table .warning unfinished.construct.code unfinished.construct.message
    (unfinished.range.shift offset)

/-- The issues of a comment. -/
def ofAnalysis (table : LineTable) (analysis : Analysis) : List Issue :=
  analysis.unfinished.map (ofUnfinished table analysis.offset)

end Issue

/-- The issues of a comment that was found in a source. -/
def FoundComment.issues (table : LineTable) (found : FoundComment) : List Issue :=
  match found.outcome with
  | .ok analysis => Issue.ofAnalysis table analysis
  | .error fault => [Issue.ofFault table found.block.start fault]

/-- The issues of a source, in the order of its comments. -/
def issuesOf (source : List Char) (comments : List FoundComment) : List Issue :=
  let table := LineTable.ofText source
  comments.flatMap (·.issues table)

end CommentProse
