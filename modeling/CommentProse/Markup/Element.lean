import CommentProse.Text.Blank
import CommentProse.Text.Search
import CommentProse.Settings.Basic

/-! # HTML tags

Only the shape of a tag is read: how it starts, the name of its element, and where it ends.
Attributes are not checked, but a `>` inside an attribute value does not end the tag. A `<` in
running text that no letter, `/` with a letter, or `!` follows is no tag.
-/

namespace CommentProse

/-- What a tag is, as far as its first characters tell. -/
inductive TagForm where
  | comment
  | declaration
  /-- An element, named in lower case. -/
  | element (name : String) (closing : Bool)
deriving DecidableEq, Repr

namespace TagForm

/-- The name by which a tag is reported. -/
def label : TagForm → String
  | .comment => "!--"
  | .declaration => "!"
  | .element name _ => name

/-- Whether the tag belongs to an element that divides prose. -/
def divides (settings : Settings) : TagForm → Bool
  | .element name _ => settings.isBlockElement name
  | _ => false

/-- The start of an element's tag with `marker` behind `<`: its form, its text and the rest. -/
def element? (marker : List Char) (closing : Bool) (text : List Char) :
    Option (TagForm × List Char × List Char) :=
  let name := text.takeWhile fun c => c.isAlphanum || c == '-'
  if (text.head?.map Char.isAlpha).getD false then
    some (.element (String.ofList (name.map Char.toLower)) closing, marker ++ name,
      text.dropWhile fun c => c.isAlphanum || c == '-')
  else none

/-- Reads the start of a tag behind `<`: its form, its text and the rest. -/
def start? (text : List Char) : Option (TagForm × List Char × List Char) :=
  match text with
  | '!' :: '-' :: '-' :: rest => some (.comment, ['!', '-', '-'], rest)
  | '!' :: rest => some (.declaration, ['!'], rest)
  | '/' :: rest => element? ['/'] true rest
  | text => element? [] false text

theorem append_of_element? {marker text taken rest : List Char} {closing : Bool} {form : TagForm}
    (read : element? marker closing text = some (form, taken, rest)) :
    taken ++ rest = marker ++ text := by
  simp only [element?] at read
  split at read
  · cases read
    rw [List.append_assoc, List.takeWhile_append_dropWhile]
  · simp at read

/-- The start of a tag and the rest are the text that was read. -/
theorem append_of_start? {text taken rest : List Char} {form : TagForm}
    (read : start? text = some (form, taken, rest)) : taken ++ rest = text := by
  simp only [start?] at read
  split at read
  · cases read; rfl
  · cases read; rfl
  · exact append_of_element? read
  · exact append_of_element? read

end TagForm

/-- A tag whose end has not been read. -/
structure OpenTag where
  /-- The offset of its `<`. -/
  start : Nat
  form : TagForm
  /-- The quote of the attribute value that is being read. -/
  quote : Option Char
  divides : Bool
deriving DecidableEq, Repr

namespace OpenTag

/-- The open quote after one more character of a tag. -/
def quoteAfter (quote : Option Char) (c : Char) : Option Char :=
  match quote with
  | some mark => if c = mark then none else some mark
  | none => if c = '"' ∨ c = '\'' then some c else none

/-- The text through the first `>` outside quotes, and the rest. -/
def splitEnd? (quote : Option Char) : List Char → Option (List Char × List Char)
  | [] => none
  | c :: text =>
    if quote = none ∧ c = '>' then some ([c], text)
    else (splitEnd? (quoteAfter quote c) text).map fun (taken, rest) => (c :: taken, rest)

theorem append_of_splitEnd? {quote : Option Char} {text taken rest : List Char}
    (split : splitEnd? quote text = some (taken, rest)) : taken ++ rest = text := by
  induction text generalizing quote taken with
  | nil => simp [splitEnd?] at split
  | cons c text ih =>
    rw [splitEnd?] at split
    split at split
    · cases split; rfl
    · obtain ⟨⟨before, after⟩, found, same⟩ := Option.map_eq_some_iff.1 split
      cases same
      simp [ih found]

/-- The text through the end of the tag, and the rest. -/
def close? (tag : OpenTag) (text : List Char) : Option (List Char × List Char) :=
  match tag.form with
  | .comment => splitThrough? ['-', '-', '>'] text
  | _ => splitEnd? tag.quote text

/-- The tag after a line that does not end it. -/
def carry (tag : OpenTag) (text : List Char) : OpenTag :=
  match tag.form with
  | .comment => tag
  | _ => { tag with quote := text.foldl quoteAfter tag.quote }

theorem append_of_close? {tag : OpenTag} {text taken rest : List Char}
    (closed : tag.close? text = some (taken, rest)) : taken ++ rest = text := by
  rw [close?] at closed
  split at closed
  · exact append_of_splitThrough? closed
  · exact append_of_splitEnd? closed

theorem ne_nil_of_close? {tag : OpenTag} {text taken rest : List Char}
    (closed : tag.close? text = some (taken, rest)) : taken ≠ [] := by
  rw [close?] at closed
  split at closed
  · exact ne_nil_of_splitThrough? (by simp) closed
  · cases text with
    | nil => simp [splitEnd?] at closed
    | cons c text =>
      rw [splitEnd?] at closed
      split at closed
      · cases closed; simp
      · obtain ⟨_, _, same⟩ := Option.map_eq_some_iff.1 closed
        cases same; simp

/-- Whether the last part of a tag says that its element has no content. -/
def isSelfClosing (taken : List Char) : Bool :=
  (trimEnd taken.dropLast).getLast? == some '/'

end OpenTag

/-- An element whose content is no prose, and that is still open. -/
structure OpenElement where
  /-- The offset of the `<` of its tag. -/
  start : Nat
  name : String
  /-- How many elements of the same name are open inside it. -/
  depth : Nat
deriving DecidableEq, Repr

namespace OpenElement

/-- The verbatim element that is open after a tag of this form. While one is open, only tags of
its own name count. -/
def after (settings : Settings) (tag : OpenTag) (selfClosing : Bool)
    (current : Option OpenElement) : Option OpenElement :=
  match tag.form with
  | .element name closing =>
    if settings.isVerbatimElement name then
      match current with
      | some element =>
        if element.name = name then
          if closing then
            if element.depth = 0 then none else some { element with depth := element.depth - 1 }
          else if selfClosing then some element
          else some { element with depth := element.depth + 1 }
        else some element
      | none => if closing || selfClosing then none else some ⟨tag.start, name, 0⟩
    else current
  | _ => current

end OpenElement

end CommentProse
