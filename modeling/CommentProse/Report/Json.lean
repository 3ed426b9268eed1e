import CommentProse.Text.Quoted

/-! # Records in JSON

An array of flat records, one field a line, with two spaces for each level. Strings escape what
JSON requires and nothing else.
-/

namespace CommentProse.Json

/-- A value of a field. -/
inductive Scalar where
  | number (value : Nat)
  | string (text : List Char)

/-- The names and values of a record, in the order in which they are written. -/
abbrev Record := List (String × Scalar)

/-- The written form of one character inside a string. -/
def escape (c : Char) : List Char :=
  match c with
  | '"' => ['\\', '"']
  | '\\' => ['\\', '\\']
  | '\x08' => ['\\', 'b']
  | '\t' => ['\\', 't']
  | '\n' => ['\\', 'n']
  | '\x0c' => ['\\', 'f']
  | '\r' => ['\\', 'r']
  | c =>
    if c.toNat < 0x20 then
      let digits := Quoted.hexadecimal c.toNat
      ['\\', 'u'] ++ List.replicate (4 - digits.length) '0' ++ digits
    else [c]

def encodeString (text : List Char) : String :=
  String.ofList ('"' :: text.flatMap escape ++ ['"'])

example : encodeString ['a', '\n', '\x01'] = "\"a\\n\\u0001\"" := by decide

def Scalar.encode : Scalar → String
  | .number value => toString value
  | .string text => encodeString text

/-- A record over several lines, inside an array. -/
def encodeRecord (record : Record) : String :=
  let fields := record.map fun (name, value) =>
    "    " ++ encodeString name.toList ++ ": " ++ value.encode
  "  \x7b\n" ++ ",\n".intercalate fields ++ "\n  \x7d"

/-- An array of records. -/
def encodeRecords (records : List Record) : String :=
  if records.isEmpty then "[]"
  else "[\n" ++ ",\n".intercalate (records.map encodeRecord) ++ "\n]"

end CommentProse.Json
