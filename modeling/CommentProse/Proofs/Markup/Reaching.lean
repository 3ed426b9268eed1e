import CommentProse.Proofs.Markup.Resuming

/-! # Reading up to a `<`

Where a step of reading ends may depend on all that follows. But a step that does not take the next
`<` ends where it ends whatever stands behind the `<`: names, plain text and braces end before it,
and the others, in a tag, in a body that is left out and in a target, have found their end by then
or take it (`OpenMarkup.step_beside`). So the steps that lead up to a `<` are the same on all texts
that begin alike up to there (`OpenMarkup.Reaches.of_less`).
-/

namespace CommentProse

namespace OpenMarkup

/-- From a text that is to be read, steps of reading lead to a rest of it, with this markup open. -/
inductive Reaches (settings : Settings) : OpenMarkup → Fragment → OpenMarkup → Fragment → Prop where
  | refl (markup : OpenMarkup) (here : Fragment) : Reaches settings markup here markup here
  | step {markup running : OpenMarkup} {place : Nat} {c : Char} {text : List Char}
      {there : Fragment}
      (later : Reaches settings (markup.step settings place c text).markup
        ⟨place + width (markup.step settings place c text).taken,
          (markup.step settings place c text).rest⟩ running there) :
      Reaches settings markup ⟨place, c :: text⟩ running there

variable {settings : Settings} {markup running last : OpenMarkup} {here there goal : Fragment}

namespace Reaches

theorem trans (first : markup.Reaches settings here running there)
    (second : running.Reaches settings there last goal) :
    markup.Reaches settings here last goal := by
  induction first with
  | refl markup here => exact second
  | step later ih => exact .step (ih second)

/-- What is read of a text is what is read up to the rest, and then what is read of the rest. -/
theorem exists_pieces (reaches : markup.Reaches settings here running there) :
    ∃ pieces, here.text = pieces.flatMap Piece.text ++ there.text ∧
      markup.read settings here.start here.text =
        (pieces ++ (running.read settings there.start there.text).1,
          (running.read settings there.start there.text).2) := by
  induction reaches with
  | refl markup here => exact ⟨[], rfl, rfl⟩
  | @step markup running place c text there later ih =>
    obtain ⟨pieces, rest, read⟩ := ih
    refine ⟨(markup.step settings place c text).pieces ++ pieces, ?_, ?_⟩
    · rw [List.flatMap_append, List.append_assoc, ← rest]
      exact (append_step settings markup place c text).symm
    · rw [read_cons]
      dsimp only at read ⊢
      rw [read, List.append_assoc]

end Reaches

/-! ### Steps beside a `<` -/

/-- What becomes of the steps on texts that differ behind a `<`. -/
inductive Beside (advance : List Char → Advance) : Prop where
  /-- All of them end before the `<`, and take the same. -/
  | ends (part : Advance)
      (same : ∀ back, advance back = { part with rest := part.rest ++ '<' :: back })
  /-- All of them take the `<`. -/
  | takes (shorter : ∀ back, (advance back).rest.length ≤ back.length)

theorem stepTag_beside (tag : OpenTag) (text : List Char) :
    Beside fun back => markup.stepTag settings tag (text ++ '<' :: back) := by
  have closes (back : List Char) := tag.close?_append_cons (c := '<') (by decide) text back
  cases front : tag.close? text with
  | some parts =>
    refine .ends (markup.stepTag settings tag text) fun back => ?_
    rw [stepTag, stepTag, closes, front]
  | none =>
    refine .takes fun back => ?_
    rw [stepTag, closes, front]
    cases behind : (tag.carry text).close? ('<' :: back) with
    | none => simp
    | some parts =>
      have size := congrArg List.length (OpenTag.append_of_close? behind)
      have positive := List.length_pos_iff.mpr (OpenTag.ne_nil_of_close? behind)
      simp only [List.length_append, List.length_cons] at size
      change parts.2.length ≤ back.length
      omega

theorem stepExcluded_beside (reference : OpenReference) (outer : List OpenReference)
    (text : List Char) :
    Beside fun back => markup.stepExcluded settings reference outer (text ++ '<' :: back) := by
  have body (back : List Char) :=
    OpenReference.splitExcluded_append_text reference.depth text ('<' :: back)
  rcases front : OpenReference.splitExcluded reference.depth text with ⟨taken, rest, reached⟩
  cases rest with
  | cons brace rest =>
    refine .ends (markup.stepExcluded settings reference outer text) fun back => ?_
    rw [stepExcluded, stepExcluded, body, front]
    rfl
  | nil =>
    refine .takes fun back => ?_
    rw [stepExcluded, body, front]
    dsimp only
    rw [OpenReference.splitExcluded, if_neg (by simp)]
    have size := congrArg List.length (OpenReference.splitExcluded_append reached back)
    rw [List.length_append] at size
    simp only [Char.reduceEq, if_false]
    split
    · simp
    · next behind =>
      simp only [Prod.mk.injEq] at behind
      rw [behind.2.1, List.length_cons] at size
      dsimp only
      omega

/-- A target ends before a `<` or takes it, whatever stands behind the `<`. -/
theorem splitTarget_beside (parentheses : Nat) (text : List Char) :
    (∀ back, OpenReference.splitTarget parentheses (text ++ '<' :: back) =
        ((OpenReference.splitTarget parentheses text).1,
          (OpenReference.splitTarget parentheses text).2 ++ '<' :: back)) ∨
      ∀ back, (OpenReference.splitTarget parentheses (text ++ '<' :: back)).2.length ≤
        back.length := by
  induction text generalizing parentheses with
  | nil =>
    right
    intro back
    have visible : isBlank '<' = false := by decide
    rw [List.nil_append, OpenReference.splitTarget, if_neg (by simp [visible])]
    have size := congrArg List.length (OpenReference.splitTarget_append parentheses back)
    rw [List.length_append] at size
    simp only [Char.reduceEq, if_false]
    omega
  | cons c text ih =>
    by_cases ends : c = '\x7b' ∨ c = '\x7d' ∨ (isBlank c ∧ parentheses = 0)
    · left
      intro back
      rw [List.cons_append, OpenReference.splitTarget, OpenReference.splitTarget, if_pos ends,
        if_pos ends]
      rfl
    · simp only [List.cons_append, OpenReference.splitTarget, if_neg ends]
      refine (ih _).imp (fun same back => ?_) id
      rw [same]

theorem stepTarget_beside (reference : OpenReference) (outer : List OpenReference)
    (text : List Char) :
    Beside fun back => markup.stepTarget reference outer (text ++ '<' :: back) := by
  have visible : isBlank '<' = false := by decide
  rcases splitTarget_beside 0 (text.dropWhile isBlank) with same | shorter
  · refine .ends (markup.stepTarget reference outer text) fun back => ?_
    rw [stepTarget, stepTarget, takeWhile_append_cons_of_neg visible,
      dropWhile_append_cons_of_neg visible, same]
  · refine .takes fun back => ?_
    rw [stepTarget, dropWhile_append_cons_of_neg visible]
    exact shorter back

theorem stepText_beside (c : Char) (text back : List Char) :
    markup.stepText c (text ++ '<' :: back) =
      { markup.stepText c text with rest := (markup.stepText c text).rest ++ '<' :: back } := by
  have special : (!isMarkupChar '<') = false := by decide
  rw [stepText, stepText, takeWhile_append_cons_of_neg (p := (!isMarkupChar ·)) special,
    dropWhile_append_cons_of_neg (p := (!isMarkupChar ·)) special]

/-- Running text is read up to a `<`. -/
theorem stepRunning_beside (place : Nat) (c : Char) (text back : List Char) :
    markup.stepRunning settings place c (text ++ '<' :: back) =
      { markup.stepRunning settings place c text with
        rest := (markup.stepRunning settings place c text).rest ++ '<' :: back } := by
  rw [stepRunning, stepRunning]
  split
  · rw [stepLess, stepLess, TagForm.start?_append_cons (by decide)]
    cases TagForm.start? text with
    | none => exact stepText_beside '<' text back
    | some parts => rfl
  · split
    · rw [stepOpen, stepOpen, OpenReference.name?_append_cons (by decide) (by decide)]
      cases OpenReference.name? text with
      | none => exact stepText_beside '\x7b' text back
      | some parts => rfl
    · split
      · obtain ⟨tag, references, verbatim, reach⟩ := markup
        cases references with
        | nil => exact stepText_beside '\x7d' text back
        | cons reference outer =>
          rw [stepClose, stepClose]
          dsimp only
          split
          · rfl
          · exact stepText_beside '\x7d' text back
      · exact stepText_beside c text back

/-- The steps on texts that are alike up to a `<` end alike before it, or all of them take it. -/
theorem step_beside (settings : Settings) (markup : OpenMarkup) (place : Nat) (c : Char)
    (text : List Char) :
    Beside fun back => markup.step settings place c (text ++ '<' :: back) := by
  obtain ⟨tag, references, verbatim, reach⟩ := markup
  cases tag with
  | some tag => exact stepTag_beside tag (c :: text)
  | none =>
    cases references with
    | nil => exact .ends _ (stepRunning_beside place c text)
    | cons reference outer =>
      obtain ⟨start, name, depth, mode⟩ := reference
      cases mode with
      | excluded => exact stepExcluded_beside _ outer (c :: text)
      | running => exact .ends _ (stepRunning_beside place c text)
      | target =>
        by_cases brace : c = '\x7b' ∨ c = '\x7d'
        · simp only [step, if_pos brace]
          exact .ends _ (stepRunning_beside place c text)
        · simp only [step, if_neg brace]
          exact stepTarget_beside _ outer (c :: text)

namespace Reaches

/-- The steps up to a `<` are the same whatever stands behind it. -/
theorem of_less {place stop : Nat} {front back : List Char}
    (reaches : markup.Reaches settings ⟨place, front ++ '<' :: back⟩ running ⟨stop, '<' :: back⟩)
    (other : List Char) :
    markup.Reaches settings ⟨place, front ++ '<' :: other⟩ running ⟨stop, '<' :: other⟩ := by
  generalize whole : Fragment.mk place (front ++ '<' :: back) = here at reaches
  generalize rest : Fragment.mk stop ('<' :: back) = there at reaches
  induction reaches generalizing place front with
  | refl markup here =>
    obtain ⟨rfl, same⟩ := Fragment.mk.inj (whole.trans rest.symm)
    obtain rfl : front = [] := List.append_left_eq_self.mp same
    exact .refl markup _
  | @step markup running start c text there later ih =>
    subst rest
    obtain ⟨pieces, left, -⟩ := later.exists_pieces
    obtain ⟨rfl, parts⟩ := Fragment.mk.inj whole
    cases front with
    | nil =>
      -- A step from the `<` itself takes it.
      obtain ⟨rfl, rfl⟩ := List.cons_eq_cons.mp parts
      have shorter := length_step_lt settings markup place '<' back
      have size := congrArg List.length left
      rw [List.length_append] at size
      dsimp only at size
      omega
    | cons d front =>
      rw [List.cons_append] at parts ⊢
      obtain ⟨rfl, rfl⟩ := List.cons_eq_cons.mp parts
      rcases step_beside settings markup place d front with ⟨part, same⟩ | shorter
      · rw [same] at ih
        refine .step ?_
        rw [same]
        exact ih rfl rfl
      · have size := congrArg List.length left
        have short := shorter back
        simp only [List.length_append, List.length_cons] at size short
        omega

end Reaches

end OpenMarkup

end CommentProse
