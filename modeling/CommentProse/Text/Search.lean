import CommentProse.Text.Basic

/-! # Searching for a delimiter

`splitBefore?` cuts a text at the first occurrence of a delimiter and `splitThrough` just after
it. Both keep every character, so what is taken and what is left make up the text again.
-/

namespace CommentProse

/-- The text before the first occurrence of `delimiter`, and the text from there on. -/
def splitBefore? (delimiter : List Char) : List Char → Option (List Char × List Char)
  | [] => if delimiter.isEmpty then some ([], []) else none
  | c :: text =>
    if delimiter.isPrefixOf (c :: text) then some ([], c :: text)
    else (splitBefore? delimiter text).map fun (taken, rest) => (c :: taken, rest)

theorem append_of_splitBefore? {delimiter text taken rest : List Char}
    (split : splitBefore? delimiter text = some (taken, rest)) : taken ++ rest = text := by
  induction text generalizing taken with
  | nil =>
    simp only [splitBefore?] at split
    split at split <;> simp_all
  | cons c text ih =>
    simp only [splitBefore?] at split
    split at split
    · cases split; rfl
    · obtain ⟨⟨before, after⟩, found, same⟩ := Option.map_eq_some_iff.1 split
      cases same
      simp [ih found]

/-- The text through the first occurrence of `delimiter`, and the text after it. -/
def splitThrough? (delimiter text : List Char) : Option (List Char × List Char) :=
  (splitBefore? delimiter text).map fun (taken, rest) =>
    (taken ++ rest.take delimiter.length, rest.drop delimiter.length)

theorem append_of_splitThrough? {delimiter text taken rest : List Char}
    (split : splitThrough? delimiter text = some (taken, rest)) : taken ++ rest = text := by
  obtain ⟨⟨before, after⟩, found, same⟩ := Option.map_eq_some_iff.1 split
  cases same
  rw [List.append_assoc, List.take_append_drop]
  exact append_of_splitBefore? found

theorem isPrefixOf_of_splitBefore? {delimiter text taken rest : List Char}
    (split : splitBefore? delimiter text = some (taken, rest)) : delimiter.isPrefixOf rest := by
  induction text generalizing taken with
  | nil =>
    simp only [splitBefore?] at split
    split at split
    · next empty => cases split; simp_all
    · simp at split
  | cons c text ih =>
    simp only [splitBefore?] at split
    split at split
    · next starts => cases split; exact starts
    · obtain ⟨⟨before, after⟩, found, same⟩ := Option.map_eq_some_iff.1 split
      cases same
      exact ih found

theorem ne_nil_of_splitThrough? {delimiter text taken rest : List Char} (nonempty : delimiter ≠ [])
    (split : splitThrough? delimiter text = some (taken, rest)) : taken ≠ [] := by
  obtain ⟨⟨before, after⟩, found, same⟩ := Option.map_eq_some_iff.1 split
  cases same
  have starts := isPrefixOf_of_splitBefore? found
  cases delimiter with
  | nil => exact absurd rfl nonempty
  | cons d delimiter => cases after <;> simp_all

/-- The text through the first occurrence of `delimiter`, or the whole text if there is none. -/
def splitThrough (delimiter text : List Char) : List Char × List Char :=
  (splitThrough? delimiter text).getD (text, [])

theorem splitThrough_append (delimiter text : List Char) :
    (splitThrough delimiter text).1 ++ (splitThrough delimiter text).2 = text := by
  cases split : splitThrough? delimiter text with
  | none => simp [splitThrough, split]
  | some halves => simpa [splitThrough, split] using append_of_splitThrough? split

end CommentProse
