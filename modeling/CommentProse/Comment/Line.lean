import CommentProse.Text.Blank

/-! # The lines of a comment

The text between the delimiters of a comment is read line by line. The front of a line, up to the
first character the writer meant to be read, is its *margin*: the indentation, one continuation
star and one space after it. The line terminator is kept apart too, so margins, contents and
terminators of all lines make up the text again (`flatMap_source_lines`).
-/

namespace CommentProse

/-- Cuts a line after its margin: leading blanks, then a star, then one space after the star. -/
def splitMargin (line : List Char) : List Char × List Char :=
  let indent := line.takeWhile isBlank
  match line.dropWhile isBlank with
  | '*' :: ' ' :: content => (indent ++ ['*', ' '], content)
  | '*' :: content => (indent ++ ['*'], content)
  | content => (indent, content)

theorem splitMargin_append (line : List Char) :
    (splitMargin line).1 ++ (splitMargin line).2 = line := by
  have whole := List.takeWhile_append_dropWhile (p := isBlank) (l := line)
  rw [splitMargin]
  split
  · next visible => rw [visible] at whole; simpa using whole
  · next visible => rw [visible] at whole; simpa using whole
  · exact whole

/-- One line of a comment. -/
structure CommentLine where
  /-- The offset of the first byte of the margin. -/
  start : Nat
  margin : List Char
  /-- What is left of the line once the margin is removed. -/
  text : List Char
  /-- The carriage return and the line feed at the end, as far as they are there. -/
  terminator : List Char
deriving DecidableEq, Repr

namespace CommentLine

/-- The line as it is written. -/
def source (line : CommentLine) : List Char :=
  line.margin ++ line.text ++ line.terminator

/-- The content of the line, in place. -/
def content (line : CommentLine) : Fragment :=
  ⟨line.start + width line.margin, line.text⟩

/-- The margin of the line, in place. -/
def marginFragment (line : CommentLine) : Fragment := ⟨line.start, line.margin⟩

/-- The offset just past the content. -/
def stop (line : CommentLine) : Nat := line.content.stop

/-- The line without its terminator. -/
def range (line : CommentLine) : ByteRange := ⟨line.start, line.stop⟩

/-- Blank lines separate paragraphs. -/
def isBlank (line : CommentLine) : Bool := allBlank line.text

end CommentLine

/-- The lines of a text as pairs of a line and its terminator. There is always a last line, which
ends without a line feed. -/
def splitLines : List Char → List (List Char × List Char)
  | [] => [([], [])]
  | c :: text =>
    if c = '\n' then ([], ['\n']) :: splitLines text
    else
      match splitLines text with
      | [] => []
      | (line, terminator) :: lines =>
        if c = '\r' ∧ line = [] ∧ terminator.head? ≠ some '\r' then
          ([], '\r' :: terminator) :: lines
        else (c :: line, terminator) :: lines

theorem splitLines_ne_nil (text : List Char) : splitLines text ≠ [] := by
  induction text with
  | nil => simp [splitLines]
  | cons c text ih =>
    rw [splitLines]
    split
    · simp
    · split
      · next none => exact absurd none ih
      · split <;> simp

theorem flatMap_splitLines (text : List Char) :
    (splitLines text).flatMap (fun line => line.1 ++ line.2) = text := by
  induction text with
  | nil => rfl
  | cons c text ih =>
    rw [splitLines]
    split
    · next feed => simp [feed, ih]
    · split
      · next none => exact absurd none (splitLines_ne_nil text)
      · next lines =>
        rw [lines] at ih
        split
        · next carriage => obtain ⟨rfl, rfl, -⟩ := carriage; simp_all
        · simp_all

namespace CommentLine

/-- Lays lines out one after the other, the first at `start`, and parts margin from content. -/
def place (start : Nat) : List (List Char × List Char) → List CommentLine
  | [] => []
  | (line, terminator) :: lines =>
    let (margin, text) := splitMargin line
    ⟨start, margin, text, terminator⟩ :: place (start + width line + width terminator) lines

theorem flatMap_source_place (start : Nat) (lines : List (List Char × List Char)) :
    (place start lines).flatMap source = lines.flatMap fun line => line.1 ++ line.2 := by
  induction lines generalizing start with
  | nil => rfl
  | cons line lines ih => simp [place, source, splitMargin_append, ih]

/-- The lines of a text that begins at `start`. -/
def ofText (start : Nat) (text : List Char) : List CommentLine :=
  place start (splitLines text)

/-- Nothing is lost between the lines. -/
theorem flatMap_source_lines (start : Nat) (text : List Char) :
    (ofText start text).flatMap source = text := by
  rw [ofText, flatMap_source_place, flatMap_splitLines]

end CommentLine

end CommentProse
