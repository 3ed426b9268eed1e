import CommentProse.Text.Invisible

/-! # Quoted text

Text is shown between double quotes. Quotes and backslashes are escaped with a backslash, the usual
controls have short names, and every other invisible character is written as `\u` with its code
point in braces, so a quoted text is always a single visible line.
-/

namespace CommentProse.Quoted

/-- The hexadecimal digits of a number, in lower case and without leading zeros. -/
def hexadecimal (n : Nat) : List Char := Nat.toDigits 16 n

/-- The written form of one character inside double quotes. -/
def escape (c : Char) : List Char :=
  match c with
  | '\x00' => ['\\', '0']
  | '\t' => ['\\', 't']
  | '\r' => ['\\', 'r']
  | '\n' => ['\\', 'n']
  | '"' => ['\\', '"']
  | '\\' => ['\\', '\\']
  | c => if isInvisible c then "\\u\x7b".toList ++ hexadecimal c.toNat ++ ['}'] else [c]

/-- The text between double quotes. -/
def encode (text : List Char) : List Char :=
  '"' :: text.flatMap escape ++ ['"']

example : encode ['a', '"', '\n'] = ['"', 'a', '\\', '"', '\\', 'n', '"'] := by decide

end CommentProse.Quoted
