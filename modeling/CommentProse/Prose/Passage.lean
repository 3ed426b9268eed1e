import CommentProse.Prose.Provenance
import CommentProse.Text.Blank

/-! # Passages of prose

A passage is a stretch of prose without the comment around it. It is drafted fragment by fragment:
blanks that meet at a junction become one, a line break becomes a single space, and a finished
passage neither begins nor ends with a blank. Each byte of it knows where it stands in the source.
-/

namespace CommentProse

/-- A passage that is being put together. -/
structure Draft where
  text : List Char
  provenance : Provenance
  /-- The source offset of the space that the next fragment is to be joined with. -/
  joint : Option Nat
deriving DecidableEq, Repr

namespace Draft

def empty : Draft := ⟨[], ∅, none⟩

/-- Whether blanks at the start of the next fragment are dropped. -/
def absorbsBlanks (draft : Draft) : Bool :=
  draft.text.isEmpty || draft.joint.isSome || (draft.text.getLast?.map isBlank).getD false

/-- Puts text behind the draft. -/
def push (fragment : Fragment) (draft : Draft) : Draft :=
  { draft with
    text := draft.text ++ fragment.text
    provenance := draft.provenance.push fragment.start (width fragment.text) }

/-- Writes the space that joins two lines, if one is due. -/
def joined (draft : Draft) : Draft :=
  match draft.joint with
  | some source => { draft.push ⟨source, [' ']⟩ with joint := none }
  | none => draft

/-- Goes on with a fragment of the source. -/
def append (fragment : Fragment) (draft : Draft) : Draft :=
  let visible := if draft.absorbsBlanks then fragment.dropWhile isBlank else fragment
  if visible.isEmpty then draft else draft.joined.push visible

/-- Drops the blanks at the end. -/
def trimmed (draft : Draft) : Draft :=
  let kept := trimEnd draft.text
  { draft with text := kept, provenance := draft.provenance.take (width kept) }

/-- Ends a line of the source at `stop`. The space that will join the next line stands for the
blanks at the end of this one, or for the line break if there are none. -/
def endLine (stop : Nat) (draft : Draft) : Draft :=
  if draft.text.isEmpty || draft.joint.isSome then draft
  else
    let kept := width (trimEnd draft.text)
    let joint :=
      if kept < width draft.text then (draft.provenance.origin? kept).getD stop else stop
    { draft.trimmed with joint := some joint }

/-- The text and provenance of a draft that has any text. -/
def finish? (draft : Draft) : Option (List Char × Provenance) :=
  let final := draft.trimmed
  if final.text.isEmpty then none else some (final.text, final.provenance)

end Draft

/-- What the prose of a section is made of, in order. -/
inductive ProseItem where
  /-- Prose, in place in the source. -/
  | text (fragment : Fragment)
  /-- The end of a line that has content, at this source offset. -/
  | lineEnd (stop : Nat)
  /-- What stands before and what stands behind belong to different passages. -/
  | division
deriving DecidableEq, Repr

namespace ProseItem

/-- The draft after one more item; a division has no effect on it. -/
def extend (draft : Draft) : ProseItem → Draft
  | .text fragment => draft.append fragment
  | .lineEnd stop => draft.endLine stop
  | .division => draft

/-- The stretches between divisions. -/
def stretches : List ProseItem → List (List ProseItem)
  | [] => [[]]
  | .division :: items => [] :: stretches items
  | item :: items =>
    match stretches items with
    | [] => [[item]]
    | stretch :: later => (item :: stretch) :: later

/-- The texts of the passages that items make up. -/
def passages (items : List ProseItem) : List (List Char × Provenance) :=
  (stretches items).filterMap fun stretch => (stretch.foldl extend .empty).finish?

end ProseItem

/-- The part of a comment that prose comes from. -/
inductive Origin where
  | description
  /-- The tag with this index among the block tags of the comment. -/
  | tag (index : Nat) (name : String)
deriving DecidableEq, Repr

/-- A passage of prose. -/
structure Passage where
  /-- The source offset of the comment. -/
  block : Nat
  /-- The number of passages before this one in the comment. -/
  ordinal : Nat
  origin : Origin
  text : List Char
  provenance : Provenance
deriving DecidableEq, Repr

namespace Passage

/-- The source offset of the first character. -/
def start (passage : Passage) : Nat := (passage.provenance.origin? 0).getD 0

end Passage

end CommentProse
