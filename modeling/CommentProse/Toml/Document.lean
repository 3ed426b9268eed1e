import CommentProse.Toml.Scalar

/-! # TOML documents

A document is a sequence of statements: a header, or a key with its value. `Toml.parse?` reads the
statements and carries them out one after the other; a document with any fault has no value. Arrays
and inline tables nest to a limit. The readers that nest take fuel, of which the length of the text
is always enough because every step takes at least one character.
-/

namespace CommentProse.Toml

/-- What follows blanks, line feeds and comments. -/
def afterFill? (inComment : Bool) : List Char → Option (List Char)
  | [] => some []
  | c :: text =>
    if c = '\n' then afterFill? false text
    else if c = '\r' then afterFill? inComment text
    else if inComment then if isTextChar c then afterFill? true text else none
    else if isSpaceOrTab c then afterFill? false text
    else if c = '#' then afterFill? true text
    else some (c :: text)

/-- What follows the rest of a line on which nothing more is said. -/
def afterLine? (inComment : Bool) : List Char → Option (List Char)
  | [] => some []
  | c :: text =>
    if c = '\n' then some text
    else if c = '\r' then afterLine? inComment text
    else if inComment then if isTextChar c then afterLine? true text else none
    else if isSpaceOrTab c then afterLine? false text
    else if c = '#' then afterLine? true text
    else none

/-- Reads a value that does not nest. -/
def scalar? (text : List Char) : Option (Value × List Char) :=
  match text with
  | '"' :: _ | '\'' :: _ =>
    (string? text).map fun (read, rest) => (.string (String.ofList read), rest)
  | 't' :: 'r' :: 'u' :: 'e' :: rest => some (.boolean true, rest)
  | 'f' :: 'a' :: 'l' :: 's' :: 'e' :: rest => some (.boolean false, rest)
  | text =>
    match afterMoment? text with
    | some rest => some (.moment, rest)
    | none => (afterNumber? text).map fun rest => (.number, rest)

/-- Reads a key, `=`, and what stands before the value. -/
def keyOf? (text : List Char) : Option (KeyPath × List Char) := do
  let (path, rest) ← keyPath? text.length text
  match rest with
  | '=' :: rest => return (path, rest.dropWhile isSpaceOrTab)
  | _ => none

mutual

/-- Reads a value that nests at most to `depth`. -/
def value? (depth : Nat) : Nat → List Char → Option (Value × List Char)
  | 0, _ => none
  | fuel + 1, text =>
    match depth, text with
    | 0, '[' :: _ => none
    | 0, '{' :: _ => none
    | depth + 1, '[' :: text =>
      (items? depth fuel text).map fun (items, rest) => (.array items, rest)
    | depth + 1, '{' :: text =>
      (entries? depth fuel [] text).map fun (entries, rest) => (.table .inline entries, rest)
    | _, text => scalar? text

/-- Reads the items of an array up to its closing bracket. -/
def items? (depth : Nat) : Nat → List Char → Option (List Value × List Char)
  | 0, _ => none
  | fuel + 1, text => do
    match ← afterFill? false text with
    | ']' :: rest => return ([], rest)
    | text =>
      let (item, rest) ← value? depth fuel text
      match ← afterFill? false rest with
      | ',' :: rest =>
        let (items, rest) ← items? depth fuel rest
        return (item :: items, rest)
      | ']' :: rest => return ([item], rest)
      | _ => none

/-- Reads the entries of an inline table up to its closing brace, behind those in `entries`. -/
def entries? (depth : Nat) : Nat → Entries → List Char → Option (Entries × List Char)
  | 0, _, _ => none
  | fuel + 1, entries, text => do
    match ← afterFill? false text with
    | '}' :: rest => return (entries, rest)
    | text =>
      let (path, rest) ← keyOf? text
      let (value, rest) ← value? depth fuel rest
      let entries ← entries.assign? value path
      match ← afterFill? false rest with
      | ',' :: rest => entries? depth fuel entries rest
      | '}' :: rest => return (entries, rest)
      | _ => none

end

/-- How deep arrays and inline tables may nest. -/
def maxDepth : Nat := 79

/-- What a line of a document says. -/
inductive Statement where
  | header (path : KeyPath)
  | arrayHeader (path : KeyPath)
  | assignment (path : KeyPath) (value : Value)

/-- Reads a path between brackets. -/
def headerPath? (text : List Char) : Option (KeyPath × List Char) :=
  keyPath? text.length (text.dropWhile isSpaceOrTab)

/-- Reads a statement. -/
def statement? (text : List Char) : Option (Statement × List Char) :=
  match text with
  | '[' :: '[' :: text => do
    match ← headerPath? text with
    | (path, ']' :: ']' :: rest) => return (.arrayHeader path, rest)
    | _ => none
  | '[' :: text => do
    match ← headerPath? text with
    | (path, ']' :: rest) => return (.header path, rest)
    | _ => none
  | text => do
    let (path, rest) ← keyOf? text
    let (value, rest) ← value? maxDepth (2 * text.length + 2) rest
    return (.assignment path value, rest)

/-- Reads statements up to the end of the document. -/
def statements? : Nat → List Char → Option (List Statement)
  | 0, _ => none
  | fuel + 1, text => do
    match ← afterFill? false text with
    | [] => return []
    | text =>
      let (statement, rest) ← statement? text
      let statements ← statements? fuel (← afterLine? false rest)
      return statement :: statements

/-- The entries of a document, and the table that the next key belongs to. -/
structure Progress where
  entries : Entries
  current : KeyPath

namespace Progress

/-- Carries out a statement. -/
def add? (progress : Progress) : Statement → Option Progress
  | .header path => do return ⟨← progress.entries.header? Entries.openTable? path, path⟩
  | .arrayHeader path => do return ⟨← progress.entries.header? Entries.appendTable? path, path⟩
  | .assignment path value => do
    let entries ← progress.entries.update? (Entries.assign? value path) progress.current
    return { progress with entries }

end Progress

/-- Whether every carriage return stands before a line feed. -/
def returnsPaired : List Char → Bool
  | [] => true
  | '\r' :: text => text.head? == some '\n' && returnsPaired text
  | _ :: text => returnsPaired text

/-- A byte order mark at the start of a document is no part of it. -/
def dropMark : List Char → List Char
  | '\ufeff' :: text => text
  | text => text

/-- The entries of a document. -/
def parse? (text : List Char) : Option Entries := do
  let text := dropMark text
  if !returnsPaired text then failure
  let statements ← statements? (text.length + 1) text
  let progress ← statements.foldlM Progress.add? ⟨[], []⟩
  return progress.entries

end CommentProse.Toml
