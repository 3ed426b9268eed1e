import CommentProse.Settings.Basic
import CommentProse.Toml.Document

/-! # Settings in TOML

Settings are written as a TOML document. A key that is absent leaves the standard choice, a key
without meaning is passed over, and a value of the wrong type makes the document invalid.
-/

namespace CommentProse

open Toml

namespace BodyPolicy

/-- A policy is written as its name, or as a table with its name for the only key and nothing
below it. -/
def ofToml? : Value → Option BodyPolicy
  | .string name => ofName? name
  | .table _ [(name, .array [])] => ofName? name
  | .table _ [(name, .table _ [])] => ofName? name
  | _ => none

end BodyPolicy

namespace Settings

def ofTomlString? : Value → Option String
  | .string text => some text
  | _ => none

def ofTomlStrings? : Value → Option (List String)
  | .array items => items.mapM ofTomlString?
  | _ => none

def ofTomlBoolean? : Value → Option Bool
  | .boolean value => some value
  | _ => none

def ofTomlPolicies? : Value → Option (List (String × BodyPolicy))
  | .table _ entries =>
    entries.mapM fun (name, value) => (BodyPolicy.ofToml? value).map (name, ·)
  | _ => none

/-- The value of a key as `read` understands it, or `absent` if the key is not given. -/
def entryD {α : Type} (entries : Entries) (key : String) (absent : α) (read : Value → Option α) :
    Option α :=
  match entries.lookup key with
  | none => some absent
  | some value => read value

/-- The settings that a table gives. -/
def ofToml? (entries : Entries) : Option Settings := do
  return {
    blockElements :=
      ← entryD entries "block_elements" standard.blockElements ofTomlStrings?
    verbatimElements :=
      ← entryD entries "verbatim_elements" standard.verbatimElements ofTomlStrings?
    inlineTags :=
      ← entryD entries "inline_tags" standard.inlineTags ofTomlPolicies?
    referencesDivide :=
      ← entryD entries "inline_tags_break_regions" standard.referencesDivide ofTomlBoolean?
    blankLinesDivide :=
      ← entryD entries "blank_lines_break_regions" standard.blankLinesDivide ofTomlBoolean? }

/-- Reads settings from the text of a document. -/
def parse? (text : List Char) : Option Settings :=
  (Toml.parse? text).bind ofToml?

/-- The settings in the text of a document, or what is to be said of it. -/
def parse (text : List Char) : Except String Settings :=
  match parse? text with
  | some settings => .ok settings
  | none => .error "the document gives no settings"

end Settings

end CommentProse
