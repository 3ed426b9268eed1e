import CommentProse.Text.Alphanumeric
import CommentProse.Text.Blank

/-! # Block tags

A line whose content begins with `@` and a name opens a block tag. Some of the standard tags take
an argument before their prose, such as a parameter name or an exception type; an unknown tag takes
none. `TagHead.parse?` cuts a tag line into its parts, which are adjacent and cover the line.
-/

namespace CommentProse

/-- The characters of tag names. -/
def isNameChar (c : Char) : Bool :=
  isAlphanumeric c || c == '_' || c == '-'

namespace BlockTag

/-- The standard tags, each with whether an argument comes before its prose. -/
def standard : List (String × Bool) :=
  [("apiNote", false), ("author", false), ("deprecated", false), ("exception", true),
    ("hidden", false), ("implNote", false), ("implSpec", false), ("param", true),
    ("provides", true), ("return", false), ("see", true), ("serial", false),
    ("serialData", false), ("serialField", true), ("since", false), ("throws", true),
    ("uses", true), ("version", false)]

def isStandard (name : String) : Bool := (standard.lookup name).isSome

/-- Whether the first word after the tag name is an argument and no prose. -/
def takesArgument (name : String) : Bool := (standard.lookup name).getD false

end BlockTag

/-- The parts of a tag line. -/
structure TagHead where
  /-- The indentation and the `@` sign. -/
  marker : Fragment
  name : Fragment
  /-- The blanks between the name and the argument. -/
  gap : Fragment
  argument : Option Fragment
  /-- The rest of the line, right after the argument or the name. -/
  body : Fragment
deriving DecidableEq, Repr

namespace TagHead

def tagName (head : TagHead) : String := String.ofList head.name.text

/-- The parts of a line from the name on, when `marker` stands before it. -/
def ofName (marker nameOn : Fragment) : TagHead :=
  let (name, rest) := nameOn.spanWhile isNameChar
  let (gap, argumentOn) := rest.spanWhile isBlank
  let (argument, body) := argumentOn.spanWhile (!isBlank ·)
  if BlockTag.takesArgument (String.ofList name.text) && !argument.isEmpty then
    ⟨marker, name, gap, some argument, body⟩
  else ⟨marker, name, ⟨rest.start, []⟩, none, rest⟩

/-- Reads a tag line: blanks, `@`, then a name. -/
def parse? (content : Fragment) : Option TagHead :=
  let (indent, sign) := content.spanWhile isBlank
  match sign.text with
  | '@' :: text =>
    let nameOn : Fragment := ⟨sign.start + width ['@'], text⟩
    if (nameOn.takeWhile isNameChar).isEmpty then none
    else some (ofName ⟨content.start, indent.text ++ ['@']⟩ nameOn)
  | _ => none

end TagHead

end CommentProse
