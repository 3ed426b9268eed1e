import CommentProse.Toml.Value

/-! # Keys, strings, numbers and moments

Scans for the parts of a TOML document that do not nest. Each takes the text from its first
character on, and returns what it read and what follows. Whether something may follow is for the
caller to decide, so a scan stops at the first character that it cannot use.
-/

namespace CommentProse.Toml

/-- The characters that may stand in comments and strings of one line. -/
def isTextChar (c : Char) : Bool :=
  c == '\t' || (0x20 ≤ c.toNat && c.toNat != 0x7f)

def isSpaceOrTab (c : Char) : Bool := c == ' ' || c == '\t'

/-- The value of a hexadecimal digit. -/
def hexDigit? (c : Char) : Option Nat :=
  if c.isDigit then some (c.toNat - '0'.toNat)
  else if 'a' ≤ c ∧ c ≤ 'f' then some (c.toNat - 'a'.toNat + 10)
  else if 'A' ≤ c ∧ c ≤ 'F' then some (c.toNat - 'A'.toNat + 10)
  else none

/-- The character with a code point, if there is one. -/
def char? (code : Nat) : Option Char :=
  if code.isValidChar then some (Char.ofNat code) else none

/-! ### Strings -/

/-- Where a scan stands in a string. -/
inductive StringState where
  | plain
  /-- Behind so many quotes of a string of several lines. -/
  | quotes (count : Nat)
  /-- Behind a backslash. -/
  | escaped
  /-- Inside a code point, with so many digits to come. -/
  | code (digits value : Nat)
  /-- Behind a backslash that ends a line; blanks and line feeds are dropped. -/
  | folding (lineEnded : Bool)

/-- What one character does to a string. -/
inductive StringMove where
  /-- The string goes on, with these characters added. -/
  | more (text : List Char) (state : StringState)
  /-- The string has ended before the character, with these characters added. -/
  | endBefore (text : List Char)
  /-- The string ends with the character, with these characters added. -/
  | endAfter (text : List Char)

/-- The rules of a kind of string. -/
structure StringKind where
  quote : Char
  escapes : Bool
  /-- Whether the string is between three quotes and may go over several lines. -/
  multiline : Bool

namespace StringKind

/-- The character that a letter stands for behind a backslash. -/
def shortEscape? : Char → Option Char
  | 'b' => some '\x08'
  | 't' => some '\t'
  | 'n' => some '\n'
  | 'f' => some '\x0c'
  | 'r' => some '\r'
  | 'e' => some '\x1b'
  | '"' => some '"'
  | '\\' => some '\\'
  | _ => none

/-- The number of hexadecimal digits that a letter announces behind a backslash. -/
def codeLength? : Char → Option Nat
  | 'x' => some 2
  | 'u' => some 4
  | 'U' => some 8
  | _ => none

def movePlain (kind : StringKind) (c : Char) : Option StringMove :=
  if c = kind.quote then if kind.multiline then some (.more [] (.quotes 1)) else some (.endAfter [])
  else if c = '\\' ∧ kind.escapes then some (.more [] .escaped)
  else if isTextChar c || (kind.multiline && (c == '\n' || c == '\r')) then some (.more [c] .plain)
  else none

/-- The move for a character behind pending text. -/
def movePending (kind : StringKind) (pending : List Char) (c : Char) : Option StringMove :=
  match kind.movePlain c with
  | some (.more text state) => some (.more (pending ++ text) state)
  | some (.endAfter text) => some (.endAfter (pending ++ text))
  | some (.endBefore text) => some (.endBefore (pending ++ text))
  | none => none

/-- Of a run of quotes the last three end the string, and at most two stand before them. -/
def move (kind : StringKind) (c : Char) : StringState → Option StringMove
  | .plain => kind.movePlain c
  | .quotes count =>
    if c = kind.quote then
      if count = 4 then some (.endAfter [c, c]) else some (.more [] (.quotes (count + 1)))
    else
      if 3 ≤ count then some (.endBefore (List.replicate (count - 3) kind.quote))
      else kind.movePending (List.replicate count kind.quote) c
  | .escaped =>
    match shortEscape? c, codeLength? c with
    | some meant, _ => some (.more [meant] .plain)
    | none, some digits => some (.more [] (.code digits 0))
    | none, none =>
      if kind.multiline && (isSpaceOrTab c || c == '\r') then some (.more [] (.folding false))
      else if kind.multiline && c == '\n' then some (.more [] (.folding true))
      else none
  | .code digits value =>
    match hexDigit? c with
    | none => none
    | some digit =>
      let value := 16 * value + digit
      if digits ≤ 1 then (char? value).map fun meant => .more [meant] .plain
      else some (.more [] (.code (digits - 1) value))
  | .folding lineEnded =>
    if isSpaceOrTab c || c == '\r' then some (.more [] (.folding lineEnded))
    else if c = '\n' then some (.more [] (.folding true))
    else if lineEnded then kind.movePlain c
    else none

/-- The rest of a string: its text, and what follows the closing quotes. -/
def tail? (kind : StringKind) (state : StringState) : List Char → Option (List Char × List Char)
  | [] =>
    match state with
    | .quotes count =>
      if 3 ≤ count then some (List.replicate (count - 3) kind.quote, []) else none
    | _ => none
  | c :: text =>
    match kind.move c state with
    | none => none
    | some (.endBefore last) => some (last, c :: text)
    | some (.endAfter last) => some (last, text)
    | some (.more read state) =>
      (kind.tail? state text).map fun (later, rest) => (read ++ later, rest)

end StringKind

/-- A line feed right behind the quotes that open a string of several lines is no part of it. -/
def dropLineFeed : List Char → List Char
  | '\n' :: text => text
  | '\r' :: '\n' :: text => text
  | text => text

/-- Reads a string of one line. -/
def lineString? (text : List Char) : Option (List Char × List Char) :=
  match text with
  | '"' :: text => StringKind.tail? ⟨'"', true, false⟩ .plain text
  | '\'' :: text => StringKind.tail? ⟨'\'', false, false⟩ .plain text
  | _ => none

/-- Reads a string. -/
def string? (text : List Char) : Option (List Char × List Char) :=
  match text with
  | '"' :: '"' :: '"' :: text => StringKind.tail? ⟨'"', true, true⟩ .plain (dropLineFeed text)
  | '\'' :: '\'' :: '\'' :: text =>
    StringKind.tail? ⟨'\'', false, true⟩ .plain (dropLineFeed text)
  | text => lineString? text

/-! ### Keys -/

def isBareKeyChar (c : Char) : Bool := c.isAlphanum || c == '_' || c == '-'

/-- Reads a key without dots. -/
def simpleKey? (text : List Char) : Option (String × List Char) :=
  let bare := text.takeWhile isBareKeyChar
  if bare.isEmpty then (lineString? text).map fun (key, rest) => (String.ofList key, rest)
  else some (String.ofList bare, text.dropWhile isBareKeyChar)

/-- Reads a key of at most `limit` parts with dots between them. -/
def keyPath? : Nat → List Char → Option (KeyPath × List Char)
  | 0, _ => none
  | limit + 1, text => do
    let (key, rest) ← simpleKey? text
    match rest.dropWhile isSpaceOrTab with
    | '.' :: text =>
      let (path, rest) ← keyPath? limit (text.dropWhile isSpaceOrTab)
      return (key :: path, rest)
    | rest => return ([key], rest)

/-! ### Numbers -/

/-- What follows the digits at the start of a text; single underscores may stand between digits. -/
def afterDigits? (isDigit : Char → Bool) (text : List Char) : Option (List Char) :=
  match text with
  | c :: text => if isDigit c then some (skip text) else none
  | [] => none
where
  /-- What follows more digits. -/
  skip : List Char → List Char
    | [] => []
    | c :: text =>
      if isDigit c || (c == '_' && (text.head?.map isDigit).getD false) then skip text
      else c :: text

def dropSign : List Char → List Char
  | '+' :: text => text
  | '-' :: text => text
  | text => text

/-- What follows an exponent, or the text itself if there is none. -/
def afterExponent? (text : List Char) : Option (List Char) :=
  match text with
  | 'e' :: text => afterDigits? Char.isDigit (dropSign text)
  | 'E' :: text => afterDigits? Char.isDigit (dropSign text)
  | text => some text

/-- What follows a decimal number without its sign. A zero is not followed by more digits. -/
def afterDecimal? (text : List Char) : Option (List Char) := do
  let whole ← match text with
    | '0' :: text => some text
    | text => afterDigits? Char.isDigit text
  match whole with
  | '.' :: text => afterExponent? (← afterDigits? Char.isDigit text)
  | text => afterExponent? text

/-- What follows a number. -/
def afterNumber? (text : List Char) : Option (List Char) :=
  match text with
  | '0' :: 'x' :: text => afterDigits? (fun c => (hexDigit? c).isSome) text
  | '0' :: 'o' :: text => afterDigits? (fun c => '0' ≤ c && c ≤ '7') text
  | '0' :: 'b' :: text => afterDigits? (fun c => c == '0' || c == '1') text
  | text =>
    match dropSign text with
    | 'i' :: 'n' :: 'f' :: text => some text
    | 'n' :: 'a' :: 'n' :: text => some text
    | text => afterDecimal? text

/-! ### Moments -/

/-- Reads `count` digits as a number. -/
def fixedNumber? (count : Nat) (text : List Char) : Option (Nat × List Char) :=
  let digits := text.take count
  if digits.length = count ∧ digits.all Char.isDigit then
    some (digits.foldl (fun value c => 10 * value + (c.toNat - '0'.toNat)) 0, text.drop count)
  else none

/-- Reads a number of two digits that is at most `limit`, with `mark` before it. -/
def markedPair? (mark : Char) (limit : Nat) (text : List Char) : Option (Nat × List Char) :=
  match text with
  | c :: text => do
    if c ≠ mark then failure
    let (value, rest) ← fixedNumber? 2 text
    if limit < value then failure
    return (value, rest)
  | [] => none

def daysIn (year month : Nat) : Nat :=
  if month = 2 then
    if year % 4 = 0 ∧ (year % 100 ≠ 0 ∨ year % 400 = 0) then 29 else 28
  else if month = 4 ∨ month = 6 ∨ month = 9 ∨ month = 11 then 30
  else 31

/-- What follows a date. -/
def afterDate? (text : List Char) : Option (List Char) := do
  let (year, rest) ← fixedNumber? 4 text
  let (month, rest) ← markedPair? '-' 12 rest
  let (day, rest) ← markedPair? '-' (daysIn year month) rest
  if month = 0 ∨ day = 0 then failure
  return rest

/-- What follows the seconds of a time, or the text itself if there are none. -/
def afterSeconds (text : List Char) : List Char :=
  match markedPair? ':' 60 text with
  | none => text
  | some (_, '.' :: digits) =>
    if (digits.head?.map Char.isDigit).getD false then digits.dropWhile Char.isDigit
    else '.' :: digits
  | some (_, rest) => rest

/-- What follows a time of day. -/
def afterTime? (text : List Char) : Option (List Char) := do
  let (hour, rest) ← fixedNumber? 2 text
  if 23 < hour then failure
  let (_, rest) ← markedPair? ':' 59 rest
  return afterSeconds rest

/-- What follows the distance from universal time, or the text itself if there is none. -/
def afterZone (text : List Char) : List Char :=
  match text with
  | 'Z' :: rest => rest
  | 'z' :: rest => rest
  | sign :: rest =>
    let distance := do
      if sign ≠ '+' ∧ sign ≠ '-' then failure
      let (hour, rest) ← fixedNumber? 2 rest
      if 23 < hour then failure
      let (_, rest) ← markedPair? ':' 59 rest
      return rest
    distance.getD text
  | [] => []

/-- What follows a date, a time, or a date with a time. -/
def afterMoment? (text : List Char) : Option (List Char) :=
  match afterDate? text with
  | none => afterTime? text
  | some (mark :: rest) =>
    if mark = 'T' ∨ mark = 't' ∨ mark = ' ' then
      match afterTime? rest with
      | some rest => some (afterZone rest)
      | none => some (mark :: rest)
    else some (mark :: rest)
  | some [] => some []

end CommentProse.Toml
