import CommentProse.Markup.Element
import CommentProse.Markup.Reference

/-! # Unfinished markup

Markup that is still open where a paragraph, a block tag or the comment ends is unfinished. What it
covers so far counts as markup, and the user is told about it.
-/

namespace CommentProse

/-- A piece of markup that is never closed, with the name to report it by. -/
inductive Construct where
  | tag (label : String)
  | reference (name : String)
  | element (name : String)
deriving DecidableEq, Repr

namespace Construct

def code : Construct → String
  | .tag _ => "unterminated-html-tag"
  | .reference _ => "unterminated-inline-reference"
  | .element _ => "unterminated-verbatim-element"

def message : Construct → String
  | .tag label => s!"HTML tag `<{label}` is never closed"
  | .reference name => "inline reference `\x7b@" ++ name ++ "` is never closed"
  | .element name => s!"element `<{name}>` is never closed"

end Construct

/-- Unfinished markup and the range that it covers. -/
structure Unfinished where
  construct : Construct
  range : ByteRange
deriving DecidableEq, Repr

/-- Where open markup is given up. -/
inductive Edge where
  | blankLine
  | tagLine
  | commentEnd
deriving DecidableEq, Repr

/-- The markup that is open between two lines of a comment. -/
structure OpenMarkup where
  /-- A tag whose end has not been read. -/
  tag : Option OpenTag
  /-- The references that are open, the innermost first. -/
  references : List OpenReference
  /-- The element, if any, whose content is no prose. -/
  verbatim : Option OpenElement
  /-- The offset just past the last line that was read. -/
  reach : Nat
deriving DecidableEq, Repr

namespace OpenMarkup

/-- Nothing is open at the start of a comment. -/
def none : OpenMarkup := ⟨.none, [], .none, 0⟩

/-- The unfinished tag at an edge. -/
def unfinishedTag (markup : OpenMarkup) : Option Unfinished :=
  markup.tag.map fun tag => ⟨.tag tag.form.label, ⟨tag.start, markup.reach⟩⟩

/-- The outermost unfinished reference at an edge; it covers those inside it. -/
def unfinishedReference (markup : OpenMarkup) : Option Unfinished :=
  markup.references.getLast?.map fun reference =>
    ⟨.reference reference.name, ⟨reference.start, markup.reach⟩⟩

/-- The unfinished element at an edge; an element may contain blank lines. -/
def unfinishedElement (edge : Edge) (markup : OpenMarkup) : Option Unfinished :=
  if edge = .blankLine then .none
  else markup.verbatim.map fun element => ⟨.element element.name, ⟨element.start, markup.reach⟩⟩

/-- The markup that has to be given up at an edge. -/
def unfinished (edge : Edge) (markup : OpenMarkup) : List Unfinished :=
  markup.unfinishedTag.toList ++ markup.unfinishedReference.toList ++
    (markup.unfinishedElement edge).toList

/-- The markup that is open behind an edge. -/
def closed (edge : Edge) (markup : OpenMarkup) : OpenMarkup :=
  { markup with
    tag := .none
    references := []
    verbatim := if edge = .blankLine then markup.verbatim else .none }

end OpenMarkup

end CommentProse
