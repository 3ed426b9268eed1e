import CommentProse.Proofs.Markup.Marks

/-! # The signs that open markup

A construct opens with a sign of two or three characters, and any text that begins with the sign
opens a construct (`Construct.Opens.exists_sign`). Reading never takes a sign for prose: where a
character is marked as prose, nothing opens in the rest of the text
(`OpenMarkup.not_opens_of_mark`).
-/

namespace CommentProse

namespace TagForm

theorem element?_cons {c : Char} (letter : c.isAlpha = true) (marker : List Char) (closing : Bool)
    (text : List Char) : (element? marker closing (c :: text)).isSome = true := by
  simp [element?, letter]

theorem exists_letter_of_element? {marker text : List Char} {closing : Bool}
    (starts : (element? marker closing text).isSome = true) :
    ∃ c behind, text = c :: behind ∧ c.isAlpha = true := by
  cases text with
  | nil => simp [element?] at starts
  | cons c text =>
    refine ⟨c, text, rfl, ?_⟩
    by_contra other
    simp [element?, other] at starts

/-- The start of a tag is told by one or two characters. -/
theorem exists_sign {text : List Char} (starts : (start? text).isSome = true) :
    ∃ sign behind, text = sign ++ behind ∧ 0 < sign.length ∧ sign.length ≤ 2 ∧
      (∀ c ∈ sign, isBlank c = false) ∧ ∀ other, (start? (sign ++ other)).isSome = true := by
  have declaration (other : List Char) : (start? (['!'] ++ other)).isSome = true := by
    rw [start?.eq_def]
    split <;> simp_all
  rw [start?.eq_def] at starts
  split at starts
  · exact ⟨['!'], _, rfl, by decide, by decide, List.forall_mem_singleton.mpr rfl, declaration⟩
  · exact ⟨['!'], _, rfl, by decide, by decide, List.forall_mem_singleton.mpr rfl, declaration⟩
  · obtain ⟨c, behind, rfl, letter⟩ := exists_letter_of_element? starts
    refine ⟨['/', c], behind, rfl, Nat.two_pos, Nat.le_refl _, ?_,
      fun other => element?_cons letter _ _ _⟩
    simp only [List.mem_cons, List.not_mem_nil, or_false, forall_eq_or_imp, forall_eq]
    exact ⟨by decide, isBlank_of_isAlpha letter⟩
  · obtain ⟨c, behind, rfl, letter⟩ := exists_letter_of_element? starts
    refine ⟨[c], behind, rfl, Nat.one_pos, Nat.le_succ _,
      by simpa using isBlank_of_isAlpha letter, ?_⟩
    intro other
    rw [start?.eq_def]
    split
    · rfl
    · rfl
    · next same => simp_all
    · exact element?_cons letter _ _ _

end TagForm

namespace Construct

variable {construct : Construct} {text : List Char}

theorem opens_of_start? (starts : (TagForm.start? text).isSome = true) :
    ∃ construct : Construct, construct.Opens ('<' :: text) := by
  obtain ⟨⟨form, rest⟩, read⟩ := Option.isSome_iff_exists.mp starts
  exact ⟨.tag form.label, text, form, rest, rfl, read, rfl⟩

theorem opens_of_isNameChar {c : Char} (named : isNameChar c = true) (text : List Char) :
    ∃ construct : Construct, construct.Opens ('\x7b' :: '@' :: c :: text) :=
  ⟨.reference (String.ofList ((c :: text).takeWhile isNameChar)), c :: text,
    (c :: text).takeWhile isNameChar, (c :: text).dropWhile isNameChar, rfl,
    by simp [OpenReference.name?, named], rfl⟩

theorem opens_of_name? (named : (OpenReference.name? text).isSome = true) :
    ∃ construct : Construct, construct.Opens ('\x7b' :: text) := by
  obtain ⟨⟨name, rest⟩, read⟩ := Option.isSome_iff_exists.mp named
  have written := OpenReference.append_of_name? read
  rw [List.cons_append] at written
  subst written
  exact ⟨.reference (String.ofList name), name ++ rest, name, rest, rfl, read, rfl⟩

/-- A construct opens with a sign: two or three visible characters, with which every text opens a
construct. -/
theorem Opens.exists_sign (opens : construct.Opens text) :
    ∃ sign behind, text = sign ++ behind ∧ 2 ≤ sign.length ∧ sign.length ≤ 3 ∧
      (∀ c ∈ sign, isBlank c = false) ∧
      ∀ other, ∃ construct : Construct, construct.Opens (sign ++ other) := by
  have tag {text : List Char} (starts : (TagForm.start? text).isSome = true) :
      ∃ sign behind, '<' :: text = sign ++ behind ∧ 2 ≤ sign.length ∧ sign.length ≤ 3 ∧
        (∀ c ∈ sign, isBlank c = false) ∧
        ∀ other, ∃ construct : Construct, construct.Opens (sign ++ other) := by
    obtain ⟨sign, behind, rfl, some, short, visible, told⟩ := TagForm.exists_sign starts
    refine ⟨'<' :: sign, behind, rfl, Nat.succ_le_succ some, Nat.succ_le_succ short, ?_, ?_⟩
    · exact List.forall_mem_cons.mpr ⟨by decide, visible⟩
    · exact fun other => opens_of_start? (told other)
  cases construct with
  | tag label =>
    obtain ⟨behind, form, rest, rfl, read, -⟩ := opens
    exact tag (by simp [read])
  | element name =>
    obtain ⟨behind, rest, rfl, read⟩ := opens
    exact tag (by simp [read])
  | reference name =>
    obtain ⟨behind, chars, rest, rfl, read, -⟩ := opens
    cases behind with
    | nil => simp [OpenReference.name?] at read
    | cons c behind =>
      have named : isNameChar c = true := by
        by_contra other
        simp [OpenReference.name?, other] at read
      refine ⟨['\x7b', '@', c], behind, rfl, by simp, Nat.le_refl _, ?_, ?_⟩
      · simp only [List.mem_cons, List.not_mem_nil, or_false, forall_eq_or_imp, forall_eq]
        exact ⟨by decide, by decide, isBlank_of_isNameChar named⟩
      · exact fun other => opens_of_isNameChar named other

end Construct

/-! ### Where prose is read -/

namespace OpenMarkup

variable {settings : Settings} {markup : OpenMarkup} {construct : Construct} {place : Nat}
  {c : Char} {text : List Char}

/-- What opens a construct in running text is no prose. -/
theorem role_stepRunning_of_opens (opens : construct.Opens (c :: text)) :
    ∀ piece ∈ (markup.stepRunning settings place c text).pieces, piece.role ≠ .prose := by
  have less (starts : (TagForm.start? text).isSome = true) :
      ∀ piece ∈ (markup.stepLess settings place text).pieces, piece.role ≠ .prose := by
    obtain ⟨read, starts⟩ := Option.isSome_iff_exists.mp starts
    simp [stepLess, starts]
  cases construct with
  | tag label =>
    obtain ⟨behind, form, rest, ⟨⟩, read, -⟩ := opens
    exact less (by simp [read])
  | element name =>
    obtain ⟨behind, rest, ⟨⟩, read⟩ := opens
    exact less (by simp [read])
  | reference name =>
    obtain ⟨behind, chars, rest, ⟨⟩, read, -⟩ := opens
    simp [stepRunning, stepOpen, read]

/-- What opens a construct is no prose, whatever is open before it. -/
theorem role_step_of_opens (opens : construct.Opens (c :: text)) :
    ∀ piece ∈ (markup.step settings place c text).pieces, piece.role ≠ .prose := by
  rw [step]
  split
  · rw [stepTag]
    split <;> simp
  · split
    · rw [stepExcluded]
      split <;> simp
    · split
      · exact role_stepRunning_of_opens opens
      · simp [stepTarget]
    · exact role_stepRunning_of_opens opens
  · exact role_stepRunning_of_opens opens

/-- Where a character is marked as prose, no construct opens. -/
theorem not_opens_of_mark {front back : List (Char × Role)}
    (marks : Piece.marks (markup.read settings place text).1 = front ++ (c, .prose) :: back) :
    ¬construct.Opens (c :: back.map Prod.fst) := by
  intro opens
  have whole := text_eq_of_marks marks
  obtain ⟨before, spelled⟩ : ∃ before, before = front.map Prod.fst := ⟨_, rfl⟩
  have prose : (Piece.marks (markup.read settings place
      (before ++ c :: back.map Prod.fst)).1)[before.length]? = some (c, .prose) := by
    rw [spelled, ← whole, marks, List.length_map]
    simp
  clear marks whole spelled
  induction size : before.length using Nat.strong_induction_on
    generalizing markup place before with
  | _ length ih =>
  subst size
  cases before with
  | nil =>
    rw [List.nil_append, marks_read_cons] at prose
    have nothing := length_flatMap_text_le (role_step_of_opens opens) prose
    exact step_taken_ne_nil settings markup place c _
      (List.length_eq_zero_iff.mp (Nat.le_zero.mp nothing))
  | cons d before =>
    rcases role_or_stepText markup settings place d (before ++ c :: back.map Prod.fst) with
      hidden | ⟨running, resumes, -, -, plain⟩
    · obtain ⟨more, parts, -, prose⟩ := exists_append_of_hidden rfl hidden prose
      have positive := List.length_pos_iff.mpr
        (step_taken_ne_nil settings markup place d (before ++ c :: back.map Prod.fst))
      refine ih more.length ?_ more prose rfl
      rw [parts, List.length_append]
      omega
    · rw [List.cons_append, marks_read_of_stepText resumes plain] at prose
      exact ih before.length (Nat.lt_succ_self _) before (by simpa using prose) rfl

end OpenMarkup

end CommentProse
