import CommentProse.Comment.BlockTag

/-! # Inline references

An inline reference is written `{@name body}`. References nest, and braces in a body have to
balance. The scans below return what they take and what they leave.
-/

namespace CommentProse

/-- How the body of a reference is being read. -/
inductive BodyMode where
  /-- Everything up to the closing brace is left out. -/
  | excluded
  /-- The target of a labelled reference has not been seen yet. -/
  | target
  /-- The body is read like the text around the reference. -/
  | running
deriving DecidableEq, Repr

/-- A reference whose closing brace has not been read. -/
structure OpenReference where
  /-- The offset of its opening brace. -/
  start : Nat
  name : String
  /-- How many plain braces are open inside it. -/
  depth : Nat
  mode : BodyMode
deriving DecidableEq, Repr

namespace OpenReference

/-- Reads `@` and a name behind an opening brace: the name and the rest. -/
def name? (text : List Char) : Option (List Char × List Char) :=
  match text with
  | '@' :: text =>
    let name := text.takeWhile isNameChar
    if name.isEmpty then none else some (name, text.dropWhile isNameChar)
  | _ => none

theorem append_of_name? {text name rest : List Char} (read : name? text = some (name, rest)) :
    '@' :: name ++ rest = text := by
  simp only [name?] at read
  split at read
  · split at read
    · simp at read
    · cases read
      rw [List.cons_append, List.takeWhile_append_dropWhile]
  · simp at read

/-- The text before the brace that closes an excluded body, the rest from that brace on, and the
depth reached. Without such a brace the whole text is taken. -/
def splitExcluded (depth : Nat) : List Char → List Char × List Char × Nat
  | [] => ([], [], depth)
  | c :: text =>
    if c = '}' ∧ depth = 0 then ([], c :: text, depth)
    else
      let next := if c = '{' then depth + 1 else if c = '}' then depth - 1 else depth
      let (taken, rest, reached) := splitExcluded next text
      (c :: taken, rest, reached)

theorem splitExcluded_append (depth : Nat) (text : List Char) :
    (splitExcluded depth text).1 ++ (splitExcluded depth text).2.1 = text := by
  induction text generalizing depth with
  | nil => rfl
  | cons c text ih =>
    rw [splitExcluded]
    split
    · rfl
    · simp [ih]

/-- The target at the start of a text, and the rest. A target ends at a brace, or at a blank
outside parentheses. -/
def splitTarget (parentheses : Nat) : List Char → List Char × List Char
  | [] => ([], [])
  | c :: text =>
    if c = '{' ∨ c = '}' ∨ (isBlank c ∧ parentheses = 0) then ([], c :: text)
    else
      let next := if c = '(' then parentheses + 1 else if c = ')' then parentheses - 1
        else parentheses
      let (taken, rest) := splitTarget next text
      (c :: taken, rest)

theorem splitTarget_append (parentheses : Nat) (text : List Char) :
    (splitTarget parentheses text).1 ++ (splitTarget parentheses text).2 = text := by
  induction text generalizing parentheses with
  | nil => rfl
  | cons c text ih =>
    rw [splitTarget]
    split
    · rfl
    · simp [ih]

end OpenReference

end CommentProse
