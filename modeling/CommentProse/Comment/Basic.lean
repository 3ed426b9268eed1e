import CommentProse.Comment.Line
import CommentProse.Lexeme

/-! # Documentation comments

A documentation comment is a body between `/**` and the first `*/` after it, with nothing but
blanks behind. `DocComment.parse` reads one and names the fault of a text that is none;
`DocComment.source` writes it back.
-/

namespace CommentProse

/-- Why a text is not one documentation comment. -/
inductive DelimiterFault where
  /-- The text does not begin with `/**`. -/
  | missingOpener
  /-- No `*/` follows the opener. -/
  | unclosed
  /-- A visible character at this offset follows the closer. -/
  | textAfterCloser (offset : Nat)
deriving DecidableEq, Repr

namespace DelimiterFault

/-- The offset in the comment that the fault points at. -/
def offset : DelimiterFault → Nat
  | .missingOpener | .unclosed => 0
  | .textAfterCloser offset => offset

def code : DelimiterFault → String
  | .missingOpener => "missing-opener"
  | .unclosed => "unterminated-comment"
  | .textAfterCloser _ => "trailing-text"

def message (fault : DelimiterFault) : String :=
  match fault with
  | .missingOpener => "comment does not start with `/**`"
  | .unclosed => s!"comment opened at offset {fault.offset} is never closed"
  | .textAfterCloser offset => s!"unexpected text after comment end at offset {offset}"

end DelimiterFault

/-- A documentation comment between its delimiters. -/
structure DocComment where
  /-- The text between the delimiters. -/
  body : List Char
  /-- The blanks after the closer. -/
  trailing : List Char
deriving DecidableEq, Repr

namespace DocComment

/-- Reads a text that begins with the opener and closes at the first closer after it. -/
def parse (text : List Char) : Except DelimiterFault DocComment :=
  if opener.isPrefixOf text then
    match splitBefore? closer (text.drop opener.length) with
    | none => .error .unclosed
    | some (body, rest) =>
      let trailing := rest.drop closer.length
      if allBlank trailing then .ok ⟨body, trailing⟩
      else
        let blanks := trailing.takeWhile isBlank
        .error (.textAfterCloser (width (opener ++ body ++ closer ++ blanks)))
  else .error .missingOpener

/-- The comment as it is written. -/
def source (comment : DocComment) : List Char :=
  opener ++ comment.body ++ closer ++ comment.trailing

/-- The opening delimiter, in place. -/
def openerFragment : Fragment := ⟨0, opener⟩

/-- The closing delimiter, in place. -/
def closerFragment (comment : DocComment) : Fragment :=
  ⟨width (opener ++ comment.body), closer⟩

/-- What follows the closing delimiter, in place. -/
def trailingFragment (comment : DocComment) : Fragment :=
  ⟨comment.closerFragment.stop, comment.trailing⟩

/-- The lines between the delimiters, in place. -/
def lines (comment : DocComment) : List CommentLine :=
  CommentLine.ofText (width opener) comment.body

end DocComment

end CommentProse
