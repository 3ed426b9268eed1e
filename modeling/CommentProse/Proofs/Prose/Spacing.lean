import CommentProse.Proofs.Prose.Wording
import CommentProse.Proofs.Text.Trimming

/-! # Spaces and line ends

A space in single-spaced prose and the end of a line come to the same. The wordings that the two
leave may differ in whether the space is written or due (`Wording.Like`), which no later word can
tell and which the next line end takes away.
-/

namespace CommentProse

namespace Wording

variable {wording other : Wording}

/-- The first wording has written the space that is due in the second, or they are the same. -/
inductive Like : Wording → Wording → Prop where
  | refl (wording : Wording) : Like wording wording
  | space {text : List Char} (ends : EndsVisibly text) : Like ⟨text ++ [' '], false⟩ ⟨text, true⟩

namespace Like

theorem append (like : Like wording other) (chars : List Char) :
    Like (wording.append chars) (other.append chars) := by
  cases like with
  | refl => exact .refl _
  | @space text ends =>
    have absorbs : absorbsBlanks ⟨text ++ [' '], false⟩ = true := by
      simp [absorbsBlanks, show isBlank ' ' = true from rfl]
    have absorbs' : absorbsBlanks ⟨text, true⟩ = true := by simp [absorbsBlanks]
    rw [Wording.append, Wording.append, absorbs, absorbs', if_pos rfl]
    by_cases empty : (chars.dropWhile isBlank).isEmpty = true
    · rw [if_pos empty, if_pos empty]
      exact .space ends
    · rw [if_neg empty, if_neg empty]
      exact .refl _

theorem endLine (like : Like wording other) : wording.endLine = other.endLine := by
  cases like with
  | refl => rfl
  | space ends => simp [Wording.endLine, ends.trimEnd_concat_space]

theorem finish (like : Like wording other) : wording.finish = other.finish := by
  cases like with
  | refl => rfl
  | space ends => rw [Wording.finish, Wording.finish, ends.trimEnd_concat_space, ends.trimEnd_eq]

/-- No word can tell like wordings apart. -/
theorem step (like : Like wording other) (word : Word) :
    (wording.step word).1 = (other.step word).1 ∧
      Like (wording.step word).2 (other.step word).2 := by
  cases word with
  | text chars => exact ⟨rfl, like.append chars⟩
  | lineEnd =>
    refine ⟨rfl, ?_⟩
    rw [Wording.step, Wording.step, like.endLine]
    exact .refl _
  | division => exact ⟨like.finish, .refl _⟩

theorem run (like : Like wording other) (words : List Word) :
    (wording.run words).1 = (other.run words).1 ∧
      Like (wording.run words).2 (other.run words).2 := by
  induction words generalizing wording other with
  | nil => exact ⟨rfl, like⟩
  | cons word words ih =>
    obtain ⟨texts, next⟩ := like.step word
    obtain ⟨later, last⟩ := ih next
    rw [run_cons, run_cons, texts, later]
    exact ⟨rfl, last⟩

/-- Where the line ends, like wordings become the same. -/
theorem run_lineEnd (like : Like wording other) (words : List Word) :
    wording.run (words ++ [.lineEnd]) = other.run (words ++ [.lineEnd]) := by
  obtain ⟨texts, last⟩ := like.run words
  simp only [run_append, texts, run_cons, Wording.step, last.endLine]

end Like

/-! ### A space and a line end -/

/-- At most one space stands at the end. -/
def Spaced (wording : Wording) : Prop :=
  EndsVisibly wording.text ∨
    ∃ text, EndsVisibly text ∧ wording = ⟨text ++ [' '], false⟩

/-- Before an end of a line a space is not due twice. -/
theorem append_of_absorbs (absorbs : wording.absorbsBlanks = true) (chars : List Char) :
    wording.append (' ' :: chars) = wording.append chars := by
  rw [append, append, absorbs, if_pos rfl, if_pos rfl,
    List.dropWhile_cons_of_pos (show isBlank ' ' = true from rfl)]

theorem absorbsBlanks_eq_false (ends : EndsVisibly wording.text) (nonempty : wording.text ≠ [])
    (written : wording.due = false) : wording.absorbsBlanks = false := by
  obtain ⟨front, last, parts⟩ := (List.eq_nil_or_concat' wording.text).resolve_left nonempty
  rw [parts] at ends
  have visible := ends last (by simp)
  simp [absorbsBlanks, parts, written, visible]

theorem append_of_not_absorbs (keeps : wording.absorbsBlanks = false) {chars : List Char}
    (nonempty : chars ≠ []) : wording.append chars = ⟨wording.text ++ chars, false⟩ := by
  have written : wording.due = false := by
    simp only [absorbsBlanks, Bool.or_eq_false_iff] at keeps
    exact keeps.1.2
  simp [append, keeps, nonempty, joined, written]

/-- A space in the prose and the end of a line come to the same. -/
theorem like_append_space (spaced : wording.Spaced) {chars : List Char}
    (begins : BeginsVisibly chars) :
    Like (wording.append (' ' :: chars)) (wording.endLine.append chars) := by
  rcases spaced with ends | ⟨text, ends, rfl⟩
  · by_cases stays : (wording.text.isEmpty || wording.due) = true
    · rw [append_of_absorbs (by simp [absorbsBlanks, stays]), endLine, if_pos stays]
      exact .refl _
    · simp only [Bool.or_eq_true, not_or, Bool.not_eq_true, List.isEmpty_eq_false_iff] at stays
      have keeps := absorbsBlanks_eq_false ends stays.1 stays.2
      have due : wording.endLine = ⟨wording.text, true⟩ := by
        simp [endLine, stays, ends.trimEnd_eq]
      have written : wording.append (' ' :: chars) =
          append chars ⟨wording.text ++ [' '], false⟩ := by
        rw [append_of_not_absorbs keeps (by simp), append]
        cases chars with
        | nil => simp
        | cons c chars => simp [begins.dropWhile_eq, joined]
      rw [due, written]
      exact (Like.space ends).append chars
  · rw [append_of_absorbs (by simp [absorbsBlanks, show isBlank ' ' = true from rfl])]
    rw [(Like.space ends).endLine, endLine, if_pos (by simp)]
    exact (Like.space ends).append chars

theorem append_nil (wording : Wording) : wording.append [] = wording := by
  simp [append]

/-- Prose can be appended in two parts behind a visible character. -/
theorem append_append (wording : Wording) {chars : List Char} (ends : EndsVisibly chars)
    (more : List Char) : wording.append (chars ++ more) = (wording.append chars).append more := by
  rcases List.eq_nil_or_concat' chars with rfl | ⟨front, last, rfl⟩
  · rw [List.nil_append, append_nil]
  · have visible : isBlank last = false := ends last (by simp)
    obtain ⟨kept, shape⟩ : ∃ kept, (front ++ [last]).dropWhile isBlank = kept ++ [last] := by
      rw [List.dropWhile_append]
      split
      · exact ⟨[], by simp [visible]⟩
      · exact ⟨_, rfl⟩
    have whole : (front ++ [last] ++ more).dropWhile isBlank = kept ++ [last] ++ more := by
      rw [List.dropWhile_append, shape, if_neg (by simp)]
    obtain ⟨text, part, all⟩ : ∃ text, wording.append (front ++ [last]) = ⟨text ++ [last], false⟩ ∧
        wording.append (front ++ [last] ++ more) = ⟨text ++ [last] ++ more, false⟩ := by
      rw [append, append, shape, whole]
      split
      · exact ⟨wording.joined ++ kept, by simp, by simp⟩
      · exact ⟨wording.joined ++ front, by simp, by simp⟩
    have keeps : absorbsBlanks ⟨text ++ [last], false⟩ = false :=
      absorbsBlanks_eq_false (by simpa [EndsVisibly] using visible) (by simp) rfl
    rw [part, all]
    cases more with
    | nil => simp [append_nil]
    | cons c more => rw [append_of_not_absorbs keeps (by simp)]

theorem Spaced.append (spaced : wording.Spaced) {chars : List Char} (single : SingleSpaced chars) :
    (wording.append chars).Spaced := by
  obtain ⟨visible, shape, spaces, begins⟩ : ∃ visible,
      wording.append chars =
        (if visible.isEmpty then wording else ⟨wording.joined ++ visible, false⟩) ∧
      SingleSpaced visible ∧ (BeginsVisibly visible ∨ wording.absorbsBlanks = false) := by
    refine ⟨_, rfl, ?_, ?_⟩
    · split
      · exact single.dropWhile
      · exact single
    · split
      · exact .inl (beginsVisibly_dropWhile chars)
      · next keeps => exact .inr (by simpa using keeps)
  rw [shape]
  split
  · exact spaced
  · next nonempty =>
    rcases spaces.endsVisibly_or with ends | ⟨kept, rfl, ends⟩
    · exact .inl (ends.append (by simpa using nonempty))
    · right
      refine ⟨wording.joined ++ kept, ?_, by simp⟩
      by_cases empty : kept = []
      · -- A space alone is appended only to text that ends visibly.
        subst empty
        have keeps := begins.resolve_left fun begins => absurd (begins ' ' rfl) (by decide)
        simp only [absorbsBlanks, Bool.or_eq_false_iff] at keeps
        obtain ⟨⟨-, written⟩, last⟩ := keeps
        rw [joined, written, if_neg (by simp), List.append_nil]
        intro c final
        rw [Option.mem_def.mp final] at last
        exact last
      · exact ends.append empty

theorem Spaced.run (spaced : wording.Spaced) {words : List Word}
    (single : ∀ chars, .text chars ∈ words → SingleSpaced chars) (inLine : .lineEnd ∉ words) :
    (wording.run words).2.Spaced := by
  induction words generalizing wording with
  | nil => exact spaced
  | cons word words ih =>
    have rest (next : Wording) (spaced : next.Spaced) : (next.run words).2.Spaced :=
      ih spaced (fun chars later => single chars (List.mem_cons_of_mem _ later))
        fun later => inLine (List.mem_cons_of_mem _ later)
    cases word with
    | text chars => exact rest _ (spaced.append (single chars List.mem_cons_self))
    | lineEnd => exact absurd List.mem_cons_self inLine
    | division => exact rest _ (.inl endsVisibly_nil)

/-- A line of words may end at any space of its prose. -/
theorem run_cut (wording : Wording) {front : List Word} {chars more : List Char}
    (spaced : (wording.run front).2.Spaced) (single : SingleSpaced (chars ++ ' ' :: more))
    (back : List Word) :
    wording.run (front ++ .text (chars ++ ' ' :: more) :: back ++ [.lineEnd]) =
      wording.run (front ++ [.text chars, .lineEnd, .text more] ++ back ++ [.lineEnd]) := by
  obtain ⟨ends, begins⟩ := single.around
  have like := like_append_space (spaced.append (single.part [] chars (' ' :: more))) begins
  rw [← append_append _ ends] at like
  have same := like.run_lineEnd back
  have whole : front ++ .text (chars ++ ' ' :: more) :: back ++ [.lineEnd] =
      front ++ .text (chars ++ ' ' :: more) :: (back ++ [.lineEnd]) := by simp
  have parts : front ++ [.text chars, .lineEnd, .text more] ++ back ++ [.lineEnd] =
      front ++ .text chars :: .lineEnd :: .text more :: (back ++ [.lineEnd]) := by simp
  rw [whole, parts, run_append, run_append]
  simp only [run_cons, step, same, List.nil_append]

/-! ### Starts of lines -/

/-- No blank stands before a space that is due. -/
def Settled (wording : Wording) : Prop := wording.due = true → EndsVisibly wording.text

/-- Nothing is written yet, or a space is due: the wording at the start of a line. -/
def Rested (wording : Wording) : Prop :=
  EndsVisibly wording.text ∧ (wording.text = [] ∨ wording.due = true)

theorem rested_empty : empty.Rested := ⟨endsVisibly_nil, .inl rfl⟩

theorem Rested.spaced (rested : wording.Rested) : wording.Spaced := .inl rested.1

theorem Rested.settled (rested : wording.Rested) : wording.Settled := fun _ => rested.1

theorem Settled.rested_endLine (settled : wording.Settled) : wording.endLine.Rested := by
  rw [endLine]
  split
  · next stays =>
    rcases Bool.or_eq_true _ _ ▸ stays with empty | due
    · have nothing : wording.text = [] := List.isEmpty_iff.mp empty
      exact ⟨nothing ▸ endsVisibly_nil, .inl nothing⟩
    · exact ⟨settled due, .inr due⟩
  · exact ⟨endsVisibly_trimEnd _, .inr rfl⟩

theorem Settled.step (settled : wording.Settled) (word : Word) : (wording.step word).2.Settled := by
  cases word with
  | text chars =>
    change (wording.append chars).Settled
    have stays : wording.append chars = wording ∨ (wording.append chars).due = false := by
      rw [append]
      generalize (if wording.absorbsBlanks then chars.dropWhile isBlank else chars) = visible
      cases visible with
      | nil => exact .inl rfl
      | cons c visible => exact .inr rfl
    rcases stays with same | written
    · rwa [same]
    · exact fun due => absurd (written.symm.trans due) (by decide)
  | lineEnd => exact settled.rested_endLine.settled
  | division => exact rested_empty.settled

theorem Settled.run (settled : wording.Settled) (words : List Word) :
    (wording.run words).2.Settled := by
  induction words generalizing wording with
  | nil => exact settled
  | cons word words ih => exact ih (settled.step word)

/-- A line that ends leaves the wording as it may be at the start of the next. -/
theorem Rested.run_lineEnd (rested : wording.Rested) (words : List Word) :
    (wording.run (words ++ [.lineEnd])).2.Rested := by
  rw [run_append]
  exact (rested.settled.run words).rested_endLine

end Wording

end CommentProse
