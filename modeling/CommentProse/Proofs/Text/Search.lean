import CommentProse.Text.Search

/-! # First occurrences

`splitBefore?` cuts a text before the first occurrence of a delimiter, and fails if there is none.
Both facts are stated here without the recursion: an occurrence is a way to write the text as
`front ++ back` with the delimiter at the start of `back`, and the first one has the shortest front.
-/

namespace CommentProse

variable {delimiter text before after : List Char}

/-- The delimiter is not found iff it does not occur. -/
theorem splitBefore?_eq_none_iff : splitBefore? delimiter text = none ↔ ¬delimiter <:+: text := by
  induction text with
  | nil => simp [splitBefore?, List.infix_nil]
  | cons c text ih =>
    rw [splitBefore?, List.infix_cons_iff, not_or, ← ih, ← List.isPrefixOf_iff_prefix]
    split <;> simp_all

/-- The delimiter is found where it stands behind the shortest front. -/
theorem splitBefore?_eq_some_iff :
    splitBefore? delimiter text = some (before, after) ↔
      before ++ after = text ∧ delimiter <+: after ∧
        ∀ front back, front ++ back = text → delimiter <+: back →
          before.length ≤ front.length := by
  induction text generalizing before with
  | nil =>
    rw [splitBefore?]
    constructor
    · intro split
      split at split
      · next empty => cases split; simp_all
      · cases split
    · rintro ⟨whole, starts, -⟩
      obtain ⟨rfl, rfl⟩ := List.append_eq_nil_iff.mp whole
      simp [List.prefix_nil.mp starts]
  | cons c text ih =>
    rw [splitBefore?]
    constructor
    · intro split
      split at split
      · next starts =>
        cases split
        exact ⟨rfl, List.isPrefixOf_iff_prefix.mp starts, by simp⟩
      · next other =>
        obtain ⟨⟨taken, rest⟩, found, same⟩ := Option.map_eq_some_iff.mp split
        cases same
        obtain ⟨whole, starts, first⟩ := ih.mp found
        refine ⟨by simp [whole], starts, ?_⟩
        intro front back cut later
        cases front with
        | nil => exact absurd (List.isPrefixOf_iff_prefix.mpr (cut ▸ later)) other
        | cons d front =>
          have := first front back (by simp_all) later
          simpa using this
    · rintro ⟨whole, starts, first⟩
      split
      · next here =>
        have short := first [] (c :: text) rfl (List.isPrefixOf_iff_prefix.mp here)
        obtain rfl := List.eq_nil_of_length_eq_zero (Nat.le_zero.mp short)
        simpa using whole.symm
      · next other =>
        cases before with
        | nil => exact absurd (List.isPrefixOf_iff_prefix.mpr (by simpa using whole ▸ starts)) other
        | cons d before =>
          obtain ⟨rfl, tails⟩ : d = c ∧ before ++ after = text := by simpa using whole
          rw [ih.mpr ⟨tails, starts, fun front back cut later => by
            simpa using first (d :: front) back (by simp [cut]) later⟩]
          rfl

/-- What follows the delimiter has no part in finding it. -/
theorem splitBefore?_append {rest : List Char} (other : List Char)
    (split : splitBefore? delimiter text = some (before, delimiter ++ rest)) :
    splitBefore? delimiter (before ++ (delimiter ++ other)) =
      some (before, delimiter ++ other) := by
  obtain ⟨rfl, -, first⟩ := splitBefore?_eq_some_iff.mp split
  refine splitBefore?_eq_some_iff.mpr ⟨rfl, List.prefix_append .., ?_⟩
  intro front back cut starts
  refine Nat.le_of_not_lt fun shorter => ?_
  obtain ⟨between, rfl, rfl⟩ : ∃ between, before = front ++ between ∧
      back = between ++ (delimiter ++ other) := by
    obtain ⟨between, whole, rest_eq⟩ | ⟨between, rfl, -⟩ := List.append_eq_append_iff.mp cut
    · exact ⟨between, whole, rest_eq⟩
    · simp only [List.length_append] at shorter
      omega
  have inside : delimiter <+: between ++ delimiter := by
    refine List.prefix_of_prefix_length_le starts ?_ (by simp)
    rw [← List.append_assoc]
    exact List.prefix_append ..
  have sooner : (front ++ between).length ≤ front.length := by
    refine first front (between ++ (delimiter ++ rest)) (by simp) ?_
    rw [← List.append_assoc]
    exact inside.trans (List.prefix_append ..)
  omega

end CommentProse
