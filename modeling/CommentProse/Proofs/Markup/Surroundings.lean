import CommentProse.Proofs.Markup.Marks
import Mathlib.Data.List.Forall2

/-! # References around what is read

What is open further out has no part in a step, as long as the step does not read a brace that
belongs to it (`OpenMarkup.step_within`). So with more references around it, which are all read as
running text, a text is read as without them, except for the braces that close them
(`OpenMarkup.forall₂_marks_within`).
-/

namespace CommentProse

namespace OpenMarkup

/-- The same markup with more references open around it. -/
def within (around : List OpenReference) (markup : OpenMarkup) : OpenMarkup :=
  { markup with references := markup.references ++ around }

end OpenMarkup

namespace Advance

def within (around : List OpenReference) (advance : Advance) : Advance :=
  { advance with markup := advance.markup.within around }

end Advance

namespace OpenMarkup

variable (settings : Settings) {markup : OpenMarkup} {around : List OpenReference}
  {text : List Char}

/-! ### Steps -/

theorem stepTag_within (tag : OpenTag) :
    (markup.within around).stepTag settings tag text =
      (markup.stepTag settings tag text).within around := by
  rw [stepTag, stepTag]
  cases tag.close? text <;> rfl

theorem stepExcluded_within (reference : OpenReference) (outer : List OpenReference) :
    (markup.within around).stepExcluded settings reference (outer ++ around) text =
      (markup.stepExcluded settings reference outer text).within around := by
  rw [stepExcluded, stepExcluded]
  split <;> rfl

theorem stepLess_within (place : Nat) :
    (markup.within around).stepLess settings place text =
      (markup.stepLess settings place text).within around := by
  rw [stepLess, stepLess]
  cases TagForm.start? text <;> rfl

theorem withDepth_within (change : Nat → Nat) (inside : markup.references ≠ []) :
    (markup.within around).withDepth change = (markup.withDepth change).within around := by
  obtain ⟨tag, references, verbatim, reach⟩ := markup
  cases references with
  | nil => exact absurd rfl inside
  | cons reference outer => rfl

/-- A brace that neither belongs to an open reference nor opens one. -/
structure StrayBrace (markup : OpenMarkup) (c : Char) (text : List Char) : Prop where
  references : markup.references = []
  brace : c = '\x7d' ∨ c = '\x7b' ∧ OpenReference.name? text = .none

theorem stepOpen_within (regular : ¬markup.StrayBrace '\x7b' text) (place : Nat) :
    (markup.within around).stepOpen settings place text =
      (markup.stepOpen settings place text).within around := by
  rw [stepOpen, stepOpen]
  cases named : OpenReference.name? text with
  | some parts => rfl
  | none =>
    have inside : markup.references ≠ [] := fun empty => regular ⟨empty, .inr ⟨rfl, named⟩⟩
    dsimp only
    rw [withDepth_within _ inside]
    rfl

theorem stepClose_within (regular : ¬markup.StrayBrace '\x7d' text) :
    (markup.within around).stepClose settings text =
      (markup.stepClose settings text).within around := by
  have inside : markup.references ≠ [] := fun empty => regular ⟨empty, .inl rfl⟩
  have shallower : (markup.within around).withDepth (· - 1) =
      (markup.withDepth (· - 1)).within around := withDepth_within (· - 1) inside
  obtain ⟨tag, references, verbatim, reach⟩ := markup
  cases references with
  | nil => exact absurd rfl inside
  | cons reference outer =>
    rw [stepClose, stepClose, shallower]
    dsimp only [within, List.cons_append]
    split <;> rfl

theorem stepRunning_within {c : Char} (regular : ¬markup.StrayBrace c text) (place : Nat) :
    (markup.within around).stepRunning settings place c text =
      (markup.stepRunning settings place c text).within around := by
  rw [stepRunning, stepRunning]
  split
  · exact stepLess_within settings place
  · split
    · next brace => exact stepOpen_within settings (brace ▸ regular) place
    · split
      · next brace => exact stepClose_within settings (brace ▸ regular)
      · rfl

/-- What is open further out has no part in a step. -/
theorem step_within {c : Char} (running : ∀ reference ∈ around, reference.mode = .running)
    (regular : markup.tag = .none → ¬markup.StrayBrace c text) (place : Nat) :
    (markup.within around).step settings place c text =
      (markup.step settings place c text).within around := by
  have resumes (references : List OpenReference)
      (modes : ∀ reference ∈ references, reference.mode = .running) (verbatim : Option OpenElement)
      (reach : Nat) : Resumes ⟨.none, references, verbatim, reach⟩ :=
    ⟨rfl, fun reference head => modes reference (List.mem_of_mem_head? head)⟩
  obtain ⟨tag, references, verbatim, reach⟩ := markup
  cases tag with
  | some tag => exact stepTag_within settings tag
  | none =>
    cases references with
    | nil =>
      have outside : Resumes (within around ⟨.none, [], verbatim, reach⟩) :=
        resumes around running verbatim reach
      rw [outside.step_eq, (resumes [] (by simp) verbatim reach).step_eq]
      exact stepRunning_within settings (regular rfl) place
    | cons reference outer =>
      obtain ⟨start, name, depth, mode⟩ := reference
      cases mode with
      | excluded => exact stepExcluded_within settings _ outer
      | running => exact stepRunning_within settings (regular rfl) place
      | target =>
        have body : ¬StrayBrace ⟨.none, ⟨start, name, depth, .running⟩ :: outer, verbatim, reach⟩
            c text := by
          rintro ⟨⟨⟩, -⟩
        simp only [step, within, List.cons_append]
        split
        · exact stepRunning_within settings body place
        · rfl

/-! ### Braces that belong to what is around -/

/-- With nothing open inside, a plain brace counts for the innermost reference around. -/
theorem exists_withDepth_within (none_open : markup.references = [])
    (running : ∀ reference ∈ around, reference.mode = .running) (change : Nat → Nat) :
    ∃ changed, (∀ reference ∈ changed, reference.mode = .running) ∧
      (markup.within around).withDepth change = markup.within changed := by
  obtain ⟨tag, references, verbatim, reach⟩ := markup
  obtain rfl : references = [] := none_open
  cases around with
  | nil => exact ⟨[], running, rfl⟩
  | cons reference outer =>
    obtain ⟨first, later⟩ := List.forall_mem_cons.mp running
    exact ⟨{ reference with depth := change reference.depth } :: outer,
      List.forall_mem_cons.mpr ⟨first, later⟩, rfl⟩

/-- With nothing around, a stray brace is plain text. -/
theorem StrayBrace.stepRunning_eq {c : Char} (stray : markup.StrayBrace c text) (place : Nat) :
    markup.stepRunning settings place c text = markup.stepText c text := by
  obtain ⟨none_open, rfl | ⟨rfl, unnamed⟩⟩ := stray
  · simp [stepRunning, stepClose, none_open]
  · simp [stepRunning, stepOpen, unnamed, withDepth, none_open]

/-- A stray brace is plain text, or closes the innermost reference around. -/
theorem StrayBrace.stepRunning_within {c : Char} (stray : markup.StrayBrace c text)
    (running : ∀ reference ∈ around, reference.mode = .running) (place : Nat) :
    (∃ changed, (∀ reference ∈ changed, reference.mode = .running) ∧
      (markup.within around).stepRunning settings place c text =
        (markup.within changed).stepText c text) ∨
    c = '\x7d' ∧ ∃ outer, (∀ reference ∈ outer, reference.mode = .running) ∧
      (markup.within around).stepRunning settings place c text =
        ⟨[⟨.markup, settings.referencesDivide, ['\x7d']⟩], markup.within outer, text⟩ := by
  obtain ⟨none_open, rfl | ⟨rfl, unnamed⟩⟩ := stray
  · obtain ⟨changed, modes, shallower⟩ := exists_withDepth_within none_open running (· - 1)
    have step : (markup.within around).stepRunning settings place '\x7d' text =
        (markup.within around).stepClose settings text := by simp [stepRunning]
    rw [step, stepClose]
    split
    · exact .inl ⟨around, running, rfl⟩
    · next reference outer open_eq =>
      split
      · have outside : around = reference :: outer := by
          simpa [within, none_open] using open_eq
        rw [outside] at running
        exact .inr ⟨rfl, outer, (List.forall_mem_cons.mp running).2, by simp [within, none_open]⟩
      · exact .inl ⟨changed, modes, by rw [shallower]⟩
  · obtain ⟨changed, modes, deeper⟩ := exists_withDepth_within none_open running (· + 1)
    exact .inl ⟨changed, modes, by simp [stepRunning, stepOpen, unnamed, deeper]⟩

/-! ### Texts -/

/-- Two marks of one character. They may differ only at a closing brace. -/
def AgreeSaveBrace (mark other : Char × Role) : Prop :=
  mark.1 = other.1 ∧ (mark.2 = other.2 ∨ mark.1 = '\x7d')

theorem forall₂_marks_within (running : ∀ reference ∈ around, reference.mode = .running)
    (place : Nat) :
    List.Forall₂ AgreeSaveBrace
      (Piece.marks ((markup.within around).read settings place text).1)
      (Piece.marks (markup.read settings place text).1) := by
  induction size : text.length using Nat.strong_induction_on
    generalizing markup around place text with
  | _ length ih =>
  subst size
  cases text with
  | nil => simp [read]
  | cons c text =>
    by_cases regular : markup.tag = .none → ¬markup.StrayBrace c text
    · have shorter := length_step_lt settings markup place c text
      rw [marks_read_cons, marks_read_cons, step_within settings running regular]
      refine List.rel_append (List.forall₂_same.mpr fun mark _ => ⟨rfl, .inl rfl⟩) ?_
      exact ih _ shorter running _ rfl
    · obtain ⟨noTag, stray⟩ := Classical.not_imp.mp regular
      have stray := not_not.mp stray
      have resumes {references : List OpenReference}
          (modes : ∀ reference ∈ references, reference.mode = .running) :
          (markup.within references).Resumes := by
        refine ⟨noTag, fun reference head => modes reference (List.mem_of_mem_head? ?_)⟩
        simpa [within, stray.references] using head
      have inside : markup.Resumes := ⟨noTag, by simp [stray.references]⟩
      have plain : markup.step settings place c text = markup.stepText c text := by
        rw [inside.step_eq, stray.stepRunning_eq]
      rw [marks_read_of_stepText inside plain]
      rcases stray.stepRunning_within settings running place with
        ⟨changed, modes, step⟩ | ⟨rfl, outer, modes, step⟩
      · rw [← (resumes running).step_eq] at step
        rw [marks_read_of_stepText (resumes modes) step]
        exact .cons ⟨rfl, .inl rfl⟩ (ih _ (Nat.lt_succ_self _) modes _ rfl)
      · rw [marks_read_cons, (resumes running).step_eq, step]
        refine .cons ⟨rfl, .inr rfl⟩ ?_
        exact ih _ (Nat.lt_succ_self _) modes _ rfl

/-- From a plain character of prose on, a text is read as if nothing stood before it, except for the
braces that close references from before. -/
theorem exists_forall₂_marks {place : Nat} {front back : List Char} {c : Char}
    (plain : isMarkupChar c = false)
    (prose : (Piece.marks (none.read settings place (front ++ c :: back)).1)[front.length]? =
      some (c, .prose)) (reach : Nat) :
    ∃ before behind, before.map Prod.fst = front ∧
      Piece.marks (none.read settings place (front ++ c :: back)).1 = before ++ behind ∧
      List.Forall₂ (fun mark other => mark.1 = other.1 ∧
          (mark.2 = other.2 ∨ mark.1 = '\x7d' ∧ '\x7b' ∈ front))
        behind (Piece.marks ((idle reach).read settings (place + width front) (c :: back)).1) := by
  obtain ⟨running, regains⟩ := exists_regains (Nested.idle 0 place) plain prose
  obtain ⟨before, spelled, whole⟩ := regains.marks
  refine ⟨before, _, spelled, whole, ?_⟩
  have inside : running = (idle running.reach).within running.references := by
    obtain ⟨tag, references, verbatim, last⟩ := running
    obtain rfl : tag = .none := regains.tag
    obtain rfl : verbatim = .none := regains.verbatim
    rfl
  have same : Piece.marks ((idle reach).read settings (place + width front) (c :: back)).1 =
      Piece.marks ((idle running.reach).read settings (place + width front) (c :: back)).1 :=
    congrArg (fun read => Piece.marks read.1)
      (read_withReach settings (idle running.reach) reach (place + width front) (c :: back))
  rw [same, inside]
  by_cases braced : '\x7b' ∈ front
  · refine (forall₂_marks_within settings regains.modes _).imp fun mark other agree => ?_
    exact ⟨agree.1, agree.2.imp_right fun brace => ⟨brace, braced⟩⟩
  · rw [regains.fresh rfl braced]
    exact List.forall₂_same.mpr fun mark _ => ⟨rfl, .inl rfl⟩

end OpenMarkup

end CommentProse
