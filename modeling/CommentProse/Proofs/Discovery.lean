import CommentProse.Lexeme
import CommentProse.Proofs.Text.Places

/-! # Comments in a source

The lexemes of a source make it up, so each documentation comment is a stretch of the source at the
offset that it is found at, and of two comments the earlier one ends before the later one starts.
-/

namespace CommentProse

namespace Lexeme

/-- The lexemes of a source make it up. -/
theorem flatMap_text_ofSource (source : List Char) : (ofSource source).flatMap text = source := by
  fun_induction ofSource source with
  | case1 => rfl
  | case2 c source ih => rw [List.flatMap_cons, ih, append_first]

theorem occursIn_of_mem_docComments (front : List Char) {lexemes : List Lexeme} {block : Fragment}
    (member : block ∈ docComments (width front) lexemes) :
    block.OccursIn (front ++ lexemes.flatMap text) := by
  induction lexemes generalizing front with
  | nil => simp [docComments] at member
  | cons lexeme lexemes ih =>
    have later (behind : block ∈ docComments (width front + width lexeme.text) lexemes) :
        block.OccursIn (front ++ (lexeme :: lexemes).flatMap text) := by
      rw [← width_append] at behind
      simpa using ih (front ++ lexeme.text) behind
    rw [docComments] at member
    split at member
    · rcases List.mem_cons.mp member with rfl | behind
      · exact ⟨front, lexemes.flatMap text, by simp, rfl⟩
      · exact later behind
    · exact later member

theorem pairwise_docComments (offset : Nat) (lexemes : List Lexeme) :
    (docComments offset lexemes).Pairwise (fun block later => block.stop ≤ later.start) ∧
      ∀ block ∈ docComments offset lexemes, offset ≤ block.start := by
  induction lexemes generalizing offset with
  | nil => exact ⟨List.Pairwise.nil, by simp [docComments]⟩
  | cons lexeme lexemes ih =>
    obtain ⟨ordered, lower⟩ := ih (offset + width lexeme.text)
    have bound : ∀ block ∈ docComments (offset + width lexeme.text) lexemes,
        offset ≤ block.start := by
      intro block member
      have := lower block member
      omega
    rw [docComments]
    split
    · refine ⟨List.Pairwise.cons (fun later member => lower later member) ordered, ?_⟩
      intro block member
      rcases List.mem_cons.mp member with rfl | behind
      · exact Nat.le_refl _
      · exact bound block behind
    · exact ⟨ordered, bound⟩

end Lexeme

/-- A documentation comment is a stretch of the source. -/
theorem occursIn_of_mem_docComments {source : List Char} {block : Fragment}
    (member : block ∈ docComments source) : block.OccursIn source := by
  have occurs := Lexeme.occursIn_of_mem_docComments [] member
  rwa [List.nil_append, Lexeme.flatMap_text_ofSource] at occurs

/-- Documentation comments are apart, and in order. -/
theorem pairwise_docComments (source : List Char) :
    (docComments source).Pairwise fun block later => block.stop ≤ later.start :=
  (Lexeme.pairwise_docComments 0 (Lexeme.ofSource source)).1

end CommentProse
