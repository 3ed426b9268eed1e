import CommentProse.Text.Basic

/-! # Blank characters

A character is blank when it has the Unicode property `White_Space`. Zero-width and format
characters are not blank. `trimEnd` is by recursion on the text, so that a text and its trimmed
form can be compared character by character.
-/

namespace CommentProse

/-- The Unicode property `White_Space`. -/
def isBlank (c : Char) : Bool :=
  let code := c.toNat
  (0x9 ≤ code && code ≤ 0xd) || code == 0x20 || code == 0x85 || code == 0xa0 || code == 0x1680 ||
    (0x2000 ≤ code && code ≤ 0x200a) || code == 0x2028 || code == 0x2029 || code == 0x202f ||
    code == 0x205f || code == 0x3000

/-- A text without a visible character: empty, or blank throughout. -/
def allBlank (text : List Char) : Bool := text.all isBlank

def trimStart (text : List Char) : List Char := text.dropWhile isBlank

def trimEnd : List Char → List Char
  | [] => []
  | c :: text =>
    match trimEnd text with
    | [] => if isBlank c then [] else [c]
    | kept => c :: kept

def trim (text : List Char) : List Char := trimEnd (trimStart text)

theorem trimEnd_eq_nil {text : List Char} : trimEnd text = [] ↔ allBlank text = true := by
  induction text with
  | nil => simp [trimEnd, allBlank]
  | cons c text ih =>
    simp only [allBlank] at ih
    rw [trimEnd]
    split
    · next trimmed => cases blank : isBlank c <;> simp [allBlank, blank, ih.1 trimmed]
    · next kept =>
      have visible : text.all isBlank ≠ true := fun blank => kept (ih.2 blank)
      simp [allBlank, visible]

end CommentProse
