/-! # Text measured in bytes

Texts are lists of characters, but every offset, range and column of the library counts UTF-8
bytes. `width` is the measure, `ByteRange` a half-open range of offsets, and `Fragment` a stretch
of text that knows where it stands. Cutting a fragment loses nothing: the two halves of
`Fragment.spanWhile` are adjacent and make up the whole.
-/

namespace CommentProse

/-- The number of bytes that a text takes in UTF-8. -/
def width (text : List Char) : Nat :=
  text.foldr (fun c size => c.utf8Size + size) 0

@[simp] theorem width_nil : width [] = 0 := rfl

@[simp] theorem width_cons (c : Char) (text : List Char) :
    width (c :: text) = c.utf8Size + width text := rfl

@[simp] theorem width_append (left right : List Char) :
    width (left ++ right) = width left + width right := by
  induction left with
  | nil => simp
  | cons c left ih => simp [ih, Nat.add_assoc]

theorem width_eq_zero {text : List Char} : width text = 0 ↔ text = [] := by
  cases text with
  | nil => simp
  | cons c text => simp [Nat.ne_of_gt c.utf8Size_pos]

/-- The longest initial part of the text that fits into `budget` bytes. -/
def takeBytes : Nat → List Char → List Char
  | _, [] => []
  | budget, c :: text =>
    if budget < c.utf8Size then [] else c :: takeBytes (budget - c.utf8Size) text

/-- What is left of the text after its first `count` bytes. A character that these bytes cut is
dropped whole. -/
def dropBytes : Nat → List Char → List Char
  | _, [] => []
  | count, c :: text => if count = 0 then c :: text else dropBytes (count - c.utf8Size) text

/-- A half-open range of byte offsets; it holds no byte when its ends meet or are reversed. -/
structure ByteRange where
  start : Nat
  stop : Nat
deriving DecidableEq, Repr

namespace ByteRange

def isEmpty (range : ByteRange) : Bool := range.stop ≤ range.start

/-- The offset lies in the range. -/
instance : Membership Nat ByteRange where
  mem range offset := range.start ≤ offset ∧ offset < range.stop

theorem mem_iff {range : ByteRange} {offset : Nat} :
    offset ∈ range ↔ range.start ≤ offset ∧ offset < range.stop := Iff.rfl

instance (offset : Nat) (range : ByteRange) : Decidable (offset ∈ range) :=
  inferInstanceAs (Decidable (_ ∧ _))

/-- The range seen from a text in which this one begins at `offset`. -/
def shift (offset : Nat) (range : ByteRange) : ByteRange :=
  ⟨offset + range.start, offset + range.stop⟩

end ByteRange

/-- A stretch of text and the byte offset of its first character. -/
structure Fragment where
  start : Nat
  text : List Char
deriving DecidableEq, Repr

namespace Fragment

/-- The offset just past the last character. -/
def stop (fragment : Fragment) : Nat := fragment.start + width fragment.text

def range (fragment : Fragment) : ByteRange := ⟨fragment.start, fragment.stop⟩

def isEmpty (fragment : Fragment) : Bool := fragment.text.isEmpty

/-- The fragment seen from a text in which this one begins at `offset`. -/
def shift (offset : Nat) (fragment : Fragment) : Fragment :=
  ⟨offset + fragment.start, fragment.text⟩

/-- The fragment without its first characters, as long as these satisfy `p`. -/
def dropWhile (p : Char → Bool) (fragment : Fragment) : Fragment :=
  ⟨fragment.start + width (fragment.text.takeWhile p), fragment.text.dropWhile p⟩

/-- The first characters, as long as these satisfy `p`. -/
def takeWhile (p : Char → Bool) (fragment : Fragment) : Fragment :=
  ⟨fragment.start, fragment.text.takeWhile p⟩

/-- Cuts a fragment before the first character that does not satisfy `p`. -/
def spanWhile (p : Char → Bool) (fragment : Fragment) : Fragment × Fragment :=
  (fragment.takeWhile p, fragment.dropWhile p)

theorem text_takeWhile_append_dropWhile (p : Char → Bool) (fragment : Fragment) :
    (fragment.takeWhile p).text ++ (fragment.dropWhile p).text = fragment.text :=
  List.takeWhile_append_dropWhile

/-- The part of the fragment in a range of offsets that does not begin before the fragment. -/
def slice (fragment : Fragment) (range : ByteRange) : Fragment :=
  ⟨range.start,
    takeBytes (range.stop - range.start) (dropBytes (range.start - fragment.start) fragment.text)⟩

end Fragment

end CommentProse
