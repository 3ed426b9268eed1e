/-! # Settings

Which markup elements divide prose or hold none, what becomes of the body of an inline reference,
and whether references and blank lines divide prose. Element names are compared without regard to
ASCII case, names of inline tags exactly.
-/

namespace CommentProse

/-- What becomes of the body of an inline reference. -/
inductive BodyPolicy where
  /-- The whole body is left out. -/
  | exclude
  /-- The first word is a target and left out; the rest is a label and is read. -/
  | label
  /-- The whole body is read. -/
  | prose
deriving DecidableEq, Repr

namespace BodyPolicy

def name : BodyPolicy → String
  | .exclude => "exclude"
  | .label => "label"
  | .prose => "prose"

def ofName? : String → Option BodyPolicy
  | "exclude" => some .exclude
  | "label" => some .label
  | "prose" => some .prose
  | _ => none

/-- The policy of an inline tag without an entry in the settings. -/
def standard (tag : String) : BodyPolicy :=
  if tag = "summary" ∨ tag = "return" then .prose else .exclude

end BodyPolicy

/-- The choices that a user can make. -/
structure Settings where
  /-- Elements whose tags divide prose. -/
  blockElements : List String
  /-- Elements whose content is no prose. -/
  verbatimElements : List String
  /-- Policies for single inline tags. -/
  inlineTags : List (String × BodyPolicy)
  /-- Whether an inline reference divides prose. -/
  referencesDivide : Bool
  /-- Whether a blank line divides prose; if not, paragraphs are joined like lines. -/
  blankLinesDivide : Bool
deriving DecidableEq, Repr

namespace Settings

/-- The block-level elements of HTML. -/
def standardBlockElements : List String :=
  ["address", "article", "aside", "blockquote", "body", "caption", "center", "dd", "details",
    "dialog", "dir", "div", "dl", "dt", "fieldset", "figcaption", "figure", "footer", "form", "h1",
    "h2", "h3", "h4", "h5", "h6", "header", "hr", "html", "legend", "li", "main", "menu", "nav",
    "ol", "p", "section", "summary", "table", "tbody", "td", "tfoot", "th", "thead", "title", "tr",
    "ul"]

/-- The elements that hold code or raw text. -/
def standardVerbatimElements : List String := ["pre", "code", "script", "style", "textarea"]

/-- The settings without any configuration. -/
def standard : Settings where
  blockElements := standardBlockElements
  verbatimElements := standardVerbatimElements
  inlineTags := []
  referencesDivide := false
  blankLinesDivide := true

/-- Whether a list of element names has this name, without regard to ASCII case. -/
def names (elements : List String) (name : String) : Bool :=
  elements.any fun element => element.toLower == name.toLower

def isBlockElement (settings : Settings) (name : String) : Bool :=
  names settings.blockElements name

def isVerbatimElement (settings : Settings) (name : String) : Bool :=
  names settings.verbatimElements name

/-- The policy for the body of an inline tag. -/
def bodyPolicy (settings : Settings) (tag : String) : BodyPolicy :=
  (settings.inlineTags.lookup tag).getD (.standard tag)

end Settings

end CommentProse
