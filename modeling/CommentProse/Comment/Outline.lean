import CommentProse.Comment.BlockTag

/-! # Description and tags

The lines before the first tag line of a comment are its description. Each tag line opens a tag,
which runs up to the next tag line or the end of the comment. `Outline` arranges lines in this way,
whatever is known of each, and forgets none of them (`Outline.lines_ofLines`).
-/

namespace CommentProse

/-- A block tag and the lines it spans. -/
structure TagSection (α : Type) where
  head : TagHead
  /-- The tag line. -/
  opening : α
  /-- The lines up to the next tag line. -/
  following : List α

namespace TagSection

variable {α : Type}

def name (tag : TagSection α) : String := tag.head.tagName

def lines (tag : TagSection α) : List α := tag.opening :: tag.following

/-- The free text of a tag, line by line: the rest of the tag line, then the lines that follow. -/
def body (content : α → Fragment) (tag : TagSection α) : List Fragment :=
  tag.head.body :: tag.following.map content

/-- The free text of a tag in one line, with single spaces where lines were joined. -/
def bodyText (content : α → Fragment) (tag : TagSection α) : String :=
  " ".intercalate <| ((tag.body content).map fun part => trim part.text).filterMap fun text =>
    if text.isEmpty then none else some (String.ofList text)

end TagSection

/-- The lines of a comment by section. -/
structure Outline (α : Type) where
  description : List α
  tags : List (TagSection α)

namespace Outline

variable {α : Type}

/-- Puts a line before an outline: a tag line takes the description for its own. -/
def cons (head? : α → Option TagHead) (line : α) (outline : Outline α) : Outline α :=
  match head? line with
  | some head => ⟨[], ⟨head, line, outline.description⟩ :: outline.tags⟩
  | none => ⟨line :: outline.description, outline.tags⟩

/-- Arranges lines, of which `head?` knows the tag lines. -/
def ofLines (head? : α → Option TagHead) (lines : List α) : Outline α :=
  lines.foldr (cons head?) ⟨[], []⟩

/-- All lines, in order. -/
def lines (outline : Outline α) : List α :=
  outline.description ++ outline.tags.flatMap TagSection.lines

theorem lines_ofLines (head? : α → Option TagHead) (lines : List α) :
    (ofLines head? lines).lines = lines := by
  induction lines with
  | nil => rfl
  | cons line lines ih =>
    rw [ofLines, List.foldr_cons, ← ofLines, cons]
    cases head? line <;> simpa [Outline.lines, TagSection.lines] using ih

/-- The tags, each with the number of lines before it. -/
def numberedTags (outline : Outline α) : List (Nat × TagSection α) :=
  number outline.description.length outline.tags
where
  /-- Numbers tags of which the first has `before` lines before it. -/
  number (before : Nat) : List (TagSection α) → List (Nat × TagSection α)
    | [] => []
    | tag :: tags => (before, tag) :: number (before + tag.lines.length) tags

end Outline

end CommentProse
