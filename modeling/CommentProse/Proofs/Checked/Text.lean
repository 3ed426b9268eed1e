import CommentProse.Proofs.Text.Places
import CommentProse.Text.Search
import Mathlib.Data.List.TakeWhile

/-! # Checked operations on texts

A machine that works with offsets can go wrong: it can subtract the larger number from the smaller,
cut a character in two, slice a text beyond its end, or add up to a number that is too large for it.
The operations below have no result in these cases. `slice?_isSome_iff` says which ranges can be
sliced, and `slice?_eq` is how a slice is known to be there: the text that it gives occurs at the
start of the range.

`limit` is the largest number that the machine has. Offsets into a text are checked where the text
is cut at them, and depths count its characters, so neither exceeds the width of the text. A sum
that leads out of the text, to an offset of the source around it, is checked by `plus?`.
-/

namespace CommentProse

namespace Checked

/-- The difference of two numbers, unless it is negative. -/
def minus? (left right : Nat) : Option Nat :=
  if right ≤ left then some (left - right) else none

/-- A number, if it is not too large. -/
def within? (limit number : Nat) : Option Nat := if number ≤ limit then some number else none

/-- The sum of two numbers, unless it is too large. -/
def plus? (limit left right : Nat) : Option Nat := within? limit (left + right)

/-- The text before an offset and the text from there on. No cut goes through a character, or lies
beyond the end. -/
def cut? : Nat → List Char → Option (List Char × List Char)
  | offset, [] => if offset = 0 then some ([], []) else none
  | offset, c :: text =>
    if offset = 0 then some ([], c :: text)
    else if offset < c.utf8Size then none
    else (cut? (offset - c.utf8Size) text).map fun (before, after) => (c :: before, after)

/-- The text before an offset. -/
def upTo? (text : List Char) (offset : Nat) : Option (List Char) := (cut? offset text).map Prod.fst

/-- The text from an offset on. -/
def from? (text : List Char) (offset : Nat) : Option (List Char) := (cut? offset text).map Prod.snd

/-- The stretch of a text that a range names. -/
def slice? (text : List Char) (range : ByteRange) : Option (List Char) := do
  let size ← minus? range.stop range.start
  let behind ← from? text range.start
  upTo? behind size

/-- The stretch of a text from `start` to `stop`, in place. -/
def fragment? (text : List Char) (start stop : Nat) : Option Fragment := do
  let part ← slice? text ⟨start, stop⟩
  return ⟨start, part⟩

/-- The range from `start` to `stop`, if it can be sliced. -/
def range? (text : List Char) (start stop : Nat) : Option ByteRange := do
  let _ ← slice? text ⟨start, stop⟩
  return ⟨start, stop⟩

/-- The offset at which a delimiter occurs first, if it does. -/
def offsetOf? (delimiter text : List Char) : Option Nat :=
  (splitBefore? delimiter text).map fun (before, _) => width before

/-- The offset of the first character that satisfies `p`, if there is one. -/
def offsetWhere? (p : Char → Bool) (text : List Char) : Option Nat :=
  if text.any p then some (width (text.takeWhile (!p ·))) else none

/-- Where a character is sought, or else the end of the text, is behind all that come before. -/
theorem offsetWhere?_getD (p : Char → Bool) (text : List Char) :
    (offsetWhere? p text).getD (width text) = width (text.takeWhile (!p ·)) := by
  rw [offsetWhere?]
  split
  · rfl
  · next nowhere =>
    have whole : text.takeWhile (!p ·) = text := by
      rw [List.takeWhile_eq_self_iff]
      simpa using nowhere
    rw [whole]
    rfl

/-! ### When the operations have a result -/

@[simp] theorem minus?_add_left (left right : Nat) : minus? (left + right) left = some right := by
  rw [minus?, if_pos (Nat.le_add_right left right), Nat.add_sub_cancel_left]

@[simp] theorem minus?_add_right (left right : Nat) : minus? (left + right) right = some left := by
  rw [Nat.add_comm, minus?_add_left]

theorem minus?_of_le {left right : Nat} (order : right ≤ left) :
    minus? left right = some (left - right) := if_pos order

theorem within?_of_le {limit number : Nat} (fits : number ≤ limit) :
    within? limit number = some number := if_pos fits

theorem plus?_of_le {limit left right : Nat} (fits : left + right ≤ limit) :
    plus? limit left right = some (left + right) := within?_of_le fits

theorem cut?_append (before after : List Char) :
    cut? (width before) (before ++ after) = some (before, after) := by
  induction before with
  | nil => cases after <;> rfl
  | cons c before ih =>
    have positive := c.utf8Size_pos
    rw [List.cons_append, cut?, width_cons, if_neg (by omega), if_neg (by omega),
      Nat.add_sub_cancel_left, ih]
    rfl

theorem upTo?_append (before after : List Char) :
    upTo? (before ++ after) (width before) = some before := by
  rw [upTo?, cut?_append]
  rfl

theorem from?_append (before after : List Char) :
    from? (before ++ after) (width before) = some after := by
  rw [from?, cut?_append]
  rfl

theorem upTo?_takeWhile (p : Char → Bool) (text : List Char) :
    upTo? text (width (text.takeWhile p)) = some (text.takeWhile p) := by
  have cut := upTo?_append (text.takeWhile p) (text.dropWhile p)
  rwa [List.takeWhile_append_dropWhile] at cut

theorem from?_takeWhile (p : Char → Bool) (text : List Char) :
    from? text (width (text.takeWhile p)) = some (text.dropWhile p) := by
  have cut := from?_append (text.takeWhile p) (text.dropWhile p)
  rwa [List.takeWhile_append_dropWhile] at cut

/-- A text is as much wider than what is left of it as what was dropped is wide. -/
theorem minus?_dropWhile (p : Char → Bool) (text : List Char) :
    minus? (width text) (width (text.dropWhile p)) = some (width (text.takeWhile p)) := by
  have total := minus?_add_right (width (text.takeWhile p)) (width (text.dropWhile p))
  rwa [← width_append, List.takeWhile_append_dropWhile] at total

theorem minus?_takeWhile (p : Char → Bool) (text : List Char) :
    minus? (width text) (width (text.takeWhile p)) = some (width (text.dropWhile p)) := by
  have total := minus?_add_left (width (text.takeWhile p)) (width (text.dropWhile p))
  rwa [← width_append, List.takeWhile_append_dropWhile] at total

/-- A cut gives the two halves of the text. -/
theorem append_of_cut? {offset : Nat} {text before after : List Char}
    (cut : cut? offset text = some (before, after)) :
    text = before ++ after ∧ width before = offset := by
  induction text generalizing offset before with
  | nil =>
    rw [cut?] at cut
    split at cut
    · next zero =>
      cases cut
      exact ⟨rfl, zero.symm⟩
    · cases cut
  | cons c text ih =>
    rw [cut?] at cut
    split at cut
    · next zero =>
      cases cut
      exact ⟨rfl, zero.symm⟩
    · split at cut
      · cases cut
      · obtain ⟨⟨front, back⟩, found, same⟩ := Option.map_eq_some_iff.mp cut
        cases same
        obtain ⟨rfl, size⟩ := ih found
        exact ⟨rfl, by rw [width_cons]; omega⟩

/-- A range can be sliced exactly if it is one of the text. -/
theorem slice?_isSome_iff {text : List Char} {range : ByteRange} :
    (slice? text range).isSome = true ↔ range.IsRangeOf text := by
  obtain ⟨start, stop⟩ := range
  constructor
  · intro sliced
    obtain ⟨part, sliced⟩ := Option.isSome_iff_exists.mp sliced
    simp only [slice?, minus?, from?, upTo?, Option.bind_eq_bind, Option.bind_eq_some_iff,
      Option.map_eq_some_iff, Option.ite_none_right_eq_some, Option.some.injEq] at sliced
    obtain ⟨size, ⟨order, rfl⟩, behind, ⟨⟨before, _⟩, first, rfl⟩, ⟨part, after⟩, second, rfl⟩ :=
      sliced
    obtain ⟨rfl, lower⟩ := append_of_cut? first
    obtain ⟨rfl, upper⟩ := append_of_cut? second
    refine .of_boundaries order ⟨before, part ++ after, rfl, lower⟩
      ⟨before ++ part, after, by simp, ?_⟩
    rw [width_append, lower, upper]
    exact Nat.add_sub_of_le order
  · rintro ⟨order, -, ⟨before, after, rfl, rfl⟩, front, back, same, rfl⟩
    obtain ⟨between, rfl, rfl⟩ := exists_between same order
    simp only [slice?, width_append, minus?_add_left, from?_append, Option.bind_eq_bind,
      Option.bind_some, upTo?_append, Option.isSome_some]

variable {text part : List Char} {start stop : Nat}

/-- The slice of a range is the text that occurs there. -/
theorem slice?_eq (occurs : (Fragment.mk start part).OccursIn text)
    (size : start + width part = stop) : slice? text ⟨start, stop⟩ = some part := by
  obtain ⟨before, after, rfl, rfl⟩ := occurs
  subst size
  simp only [slice?, minus?_add_left, List.append_assoc, from?_append, Option.bind_eq_bind,
    Option.bind_some, upTo?_append]

theorem fragment?_eq (occurs : (Fragment.mk start part).OccursIn text)
    (size : start + width part = stop) : fragment? text start stop = some ⟨start, part⟩ := by
  rw [fragment?, slice?_eq occurs size]
  rfl

theorem slice?_of_occursIn {fragment : Fragment} (occurs : fragment.OccursIn text) :
    slice? text ⟨fragment.start, fragment.stop⟩ = some fragment.text :=
  slice?_eq occurs rfl

theorem fragment?_of_occursIn {fragment : Fragment} (occurs : fragment.OccursIn text) :
    fragment? text fragment.start fragment.stop = some fragment :=
  fragment?_eq occurs rfl

/-- A part of a fragment is there wherever the fragment occurs. -/
theorem fragment?_part {fragment : Fragment} (occurs : fragment.OccursIn text)
    (left middle right : List Char) (parts : fragment.text = left ++ middle ++ right)
    (first : fragment.start + width left = start) (last : start + width middle = stop) :
    fragment? text start stop = some ⟨start, middle⟩ := by
  subst first
  exact fragment?_eq (occurs.part left middle right parts) last

theorem slice?_part {fragment : Fragment} (occurs : fragment.OccursIn text)
    (left middle right : List Char) (parts : fragment.text = left ++ middle ++ right)
    (first : fragment.start + width left = start) (last : start + width middle = stop) :
    slice? text ⟨start, stop⟩ = some middle := by
  subst first
  exact slice?_eq (occurs.part left middle right parts) last

/-- The two parts into which a character class cuts a fragment that occurs in a text. -/
structure SpannedWhile (text : List Char) (p : Char → Bool) (fragment front back : Fragment) :
    Prop where
  start : front.start = fragment.start
  meets : back.start = front.stop
  stop : back.stop = fragment.stop
  taken : fragment.text.takeWhile p = front.text
  left : fragment.text.dropWhile p = back.text
  frontOccurs : front.OccursIn text
  backOccurs : back.OccursIn text

theorem exists_spannedWhile {fragment : Fragment} (occurs : fragment.OccursIn text)
    (p : Char → Bool) :
    ∃ front back, fragment.spanWhile p = (front, back) ∧ SpannedWhile text p fragment front back :=
  ⟨_, _, rfl, rfl, rfl, fragment.stop_dropWhile p, rfl, rfl, occurs.takeWhile p,
    occurs.dropWhile p⟩

namespace SpannedWhile

variable {p : Char → Bool} {fragment front back : Fragment}
  (spanned : SpannedWhile text p fragment front back)

include spanned

theorem start_add_width : fragment.start + width front.text = back.start := by
  rw [spanned.meets, Fragment.stop, spanned.start]

theorem fragment?_front : fragment? text fragment.start back.start = some front := by
  rw [← spanned.start, spanned.meets]
  exact fragment?_of_occursIn spanned.frontOccurs

theorem fragment?_back : fragment? text back.start fragment.stop = some back := by
  rw [← spanned.stop]
  exact fragment?_of_occursIn spanned.backOccurs

theorem from?_back : from? fragment.text (width front.text) = some back.text := by
  rw [← spanned.taken, from?_takeWhile, spanned.left]

theorem minus?_back :
    minus? (width fragment.text) (width back.text) = some (width front.text) := by
  rw [← spanned.left, minus?_dropWhile, spanned.taken]

theorem minus?_front :
    minus? (width fragment.text) (width front.text) = some (width back.text) := by
  rw [← spanned.taken, minus?_takeWhile, spanned.left]

end SpannedWhile

theorem range?_eq (valid : ByteRange.IsRangeOf text ⟨start, stop⟩) :
    range? text start stop = some ⟨start, stop⟩ := by
  obtain ⟨part, sliced⟩ := Option.isSome_iff_exists.mp (slice?_isSome_iff.mpr valid)
  rw [range?, sliced]
  rfl

/-- What is computed for each item without fail is computed for all items. -/
theorem mapM_eq_some_map {α β : Type} {items : List α} {f : α → Option β} {g : α → β}
    (each : ∀ item ∈ items, f item = some (g item)) : items.mapM f = some (items.map g) := by
  induction items with
  | nil => rfl
  | cons item items ih =>
    obtain ⟨first, later⟩ := List.forall_mem_cons.mp each
    rw [List.mapM_cons, first, ih later]
    rfl

theorem mapM_eq_some_self {α : Type} {items : List α} {f : α → Option α}
    (each : ∀ item ∈ items, f item = some item) : items.mapM f = some items := by
  rw [mapM_eq_some_map each, List.map_id']

end Checked

end CommentProse
