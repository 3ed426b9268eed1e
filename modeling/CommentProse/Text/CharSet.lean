/-! # Sets of characters given by ranges of code points

A set is a list of ranges in increasing order, both ends included, so that a search can stop at
the first range that begins past the character.
-/

namespace CommentProse

/-- Ranges of code points, ends included, in increasing order. -/
abbrev CharSet := List (Nat × Nat)

namespace CharSet

/-- Whether the code point lies in one of the ranges. -/
def holds (code : Nat) : CharSet → Bool
  | [] => false
  | (first, last) :: ranges => first ≤ code && (code ≤ last || holds code ranges)

end CharSet

end CommentProse
