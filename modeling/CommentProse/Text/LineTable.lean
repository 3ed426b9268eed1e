import CommentProse.Text.Basic

/-! # Lines and columns

`LineTable` keeps the offsets at which the lines of a text begin. `position` turns an offset into a
line and a column, both counted from one and the column in bytes; offsets past the end of the text
stand for its end.
-/

namespace CommentProse

/-- A place in a text as an editor shows it. -/
structure Position where
  line : Nat
  column : Nat
deriving DecidableEq, Repr

/-- Where the lines of a text begin. -/
structure LineTable where
  /-- The offsets of the first bytes of the lines, in order. -/
  starts : List Nat
  /-- The width of the text. -/
  size : Nat
deriving DecidableEq, Repr

namespace LineTable

/-- The offsets just past the line feeds of a text that begins at `offset`. -/
def startsAfter (offset : Nat) : List Char → List Nat
  | [] => []
  | c :: text =>
    let next := offset + c.utf8Size
    if c = '\n' then next :: startsAfter next text else startsAfter next text

def ofText (text : List Char) : LineTable :=
  ⟨0 :: startsAfter 0 text, width text⟩

/-- The line and column of an offset. -/
def position (table : LineTable) (offset : Nat) : Position :=
  let place := min offset table.size
  let reached := table.starts.takeWhile (· ≤ place)
  ⟨reached.length, place - reached.getLastD 0 + 1⟩

example : (ofText ['a', '\n', 'b']).position 2 = ⟨2, 1⟩ := by decide

example : (ofText ['a', '\n', 'b']).position 9 = ⟨2, 2⟩ := by decide

end LineTable

end CommentProse
