import CommentProse.Proofs.Markup.Marks

/-! # Reading part by part

Reading passes over the first part of a text if it marks its characters and goes on behind it with
some markup, whatever the pieces are (`OpenMarkup.Passes`). One step passes over what it takes; of
plain text and of a body that is left out, every single character can be passed over.
-/

namespace CommentProse

namespace OpenMarkup

/-- Reading marks the first part of a text like this, and goes on behind it with `next`. -/
structure Passes (settings : Settings) (markup : OpenMarkup) (place : Nat)
    (marks : List (Char × Role)) (rest : List Char) (next : OpenMarkup) : Prop where
  marks_eq : Piece.marks (markup.read settings place (marks.map Prod.fst ++ rest)).1 =
    marks ++ Piece.marks (next.read settings (place + width (marks.map Prod.fst)) rest).1
  last_eq : (markup.read settings place (marks.map Prod.fst ++ rest)).2 =
    (next.read settings (place + width (marks.map Prod.fst)) rest).2

variable {settings : Settings} {markup running next last : OpenMarkup} {place : Nat}
  {marks more : List (Char × Role)} {c : Char} {text rest : List Char}

namespace Passes

theorem nil (settings : Settings) (markup : OpenMarkup) (place : Nat) (rest : List Char) :
    Passes settings markup place [] rest markup := ⟨rfl, rfl⟩

theorem trans (first : Passes settings markup place marks (more.map Prod.fst ++ rest) next)
    (second : Passes settings next (place + width (marks.map Prod.fst)) more rest last) :
    Passes settings markup place (marks ++ more) rest last := by
  have text : (marks ++ more).map Prod.fst ++ rest =
      marks.map Prod.fst ++ (more.map Prod.fst ++ rest) := by simp
  have size : place + width ((marks ++ more).map Prod.fst) =
      place + width (marks.map Prod.fst) + width (more.map Prod.fst) := by
    rw [List.map_append, width_append, Nat.add_assoc]
  constructor
  · rw [text, size, first.marks_eq, second.marks_eq, List.append_assoc]
  · rw [text, size, first.last_eq, second.last_eq]

/-- A step passes over what it takes. -/
theorem step (settings : Settings) (markup : OpenMarkup) (place : Nat) (c : Char)
    (text : List Char) :
    Passes settings markup place (Piece.marks (markup.step settings place c text).pieces)
      (markup.step settings place c text).rest (markup.step settings place c text).markup := by
  have whole := append_step settings markup place c text
  rw [Advance.taken, ← Piece.map_fst_marks] at whole
  constructor
  · rw [whole, marks_read_cons, Advance.taken, ← Piece.map_fst_marks]
  · rw [whole, read_cons]
    dsimp only
    rw [Advance.taken, ← Piece.map_fst_marks]

/-- Plain text is passed over character by character. -/
theorem stepText (resumes : running.Resumes)
    (plain : markup.step settings place c text = running.stepText c text) :
    Passes settings markup place [(c, running.textRole)] text running := by
  refine ⟨marks_read_of_stepText resumes plain, ?_⟩
  change (markup.read settings place (c :: text)).2 =
    (running.read settings (place + c.utf8Size) text).2
  rw [read_cons, plain]
  cases text with
  | nil => simp [OpenMarkup.stepText, read]
  | cons d text =>
    cases special : isMarkupChar d with
    | true => simp [OpenMarkup.stepText, special, Advance.taken]
    | false =>
      have next : running.step settings (place + c.utf8Size) d text = running.stepText d text :=
        resumes.step_eq_stepText settings text _ special
      rw [read_cons, next]
      simp [OpenMarkup.stepText, special, Advance.taken, Nat.add_assoc]

theorem plain (settings : Settings) (resumes : markup.Resumes) (place : Nat)
    (plain : ∀ c ∈ text, isMarkupChar c = false) (rest : List Char) :
    Passes settings markup place (text.map (·, markup.textRole)) rest markup := by
  induction text generalizing place with
  | nil => exact .nil settings markup place rest
  | cons c text ih =>
    obtain ⟨first, others⟩ := List.forall_mem_cons.mp plain
    exact (stepText resumes (resumes.step_eq_stepText settings _ place first)).trans
      (ih (place + c.utf8Size) others)

end Passes

/-! ### Bodies that are left out -/

/-- Markup in which nothing but references is open, the innermost one with a body that is left
out. -/
structure LeavesOut (markup : OpenMarkup) (reference : OpenReference)
    (outer : List OpenReference) : Prop where
  tag : markup.tag = .none
  references : markup.references = reference :: outer
  excluded : reference.mode = .excluded

namespace LeavesOut

variable {reference : OpenReference} {outer : List OpenReference}

theorem step_eq (leaves : markup.LeavesOut reference outer) (settings : Settings) (place : Nat)
    (c : Char) (text : List Char) :
    markup.step settings place c text =
      markup.stepExcluded settings reference outer (c :: text) := by
  simp only [OpenMarkup.step, leaves.tag, leaves.references, leaves.excluded]

/-- The brace that closes the reference is passed over. -/
theorem passes_close (leaves : markup.LeavesOut reference outer) (settings : Settings)
    (place : Nat) (closed : reference.depth = 0) (text : List Char) :
    Passes settings markup place [('\x7d', .markup)] text
      { markup with references := outer } := by
  have pass := Passes.step settings markup place '\x7d' text
  rw [leaves.step_eq, stepExcluded, closed] at pass
  exact pass

/-- Any other character of the body is passed over. -/
theorem passes_char (leaves : markup.LeavesOut reference outer) (settings : Settings)
    (place : Nat) (inside : ¬(c = '\x7d' ∧ reference.depth = 0)) (text : List Char) :
    let depth := if c = '\x7b' then reference.depth + 1
      else if c = '\x7d' then reference.depth - 1 else reference.depth
    Passes settings markup place [(c, .argument)] text
      { markup with references := { reference with depth } :: outer } := by
  intro depth
  have carried : LeavesOut { markup with references := { reference with depth } :: outer }
      { reference with depth } outer := ⟨leaves.tag, rfl, leaves.excluded⟩
  have split : OpenReference.splitExcluded reference.depth (c :: text) =
      (c :: (OpenReference.splitExcluded depth text).1,
        (OpenReference.splitExcluded depth text).2.1,
        (OpenReference.splitExcluded depth text).2.2) := by
    rw [OpenReference.splitExcluded, if_neg inside]
  have step := leaves.step_eq settings place c text
  rw [stepExcluded, split] at step
  suffices Piece.marks (markup.read settings place (c :: text)).1 = (c, .argument) ::
      Piece.marks (read settings
        { markup with references := { reference with depth } :: outer } (place + c.utf8Size)
        text).1 ∧
      (markup.read settings place (c :: text)).2 = (read settings
        { markup with references := { reference with depth } :: outer } (place + c.utf8Size)
        text).2 from ⟨this.1, this.2⟩
  cases text with
  | nil =>
    rw [read_cons, step]
    simp [OpenReference.splitExcluded, read]
  | cons d text =>
    -- The next step takes what this one takes, but for its first character.
    have next := carried.step_eq settings (place + c.utf8Size) d text
    rw [stepExcluded] at next
    rcases behind : OpenReference.splitExcluded depth (d :: text) with ⟨taken, rest, reached⟩
    rw [behind] at step next
    rw [read_cons, read_cons, step, next]
    cases rest with
    | nil => simp [Advance.taken, read]
    | cons brace rest => simp [Advance.taken, Nat.add_assoc]

end LeavesOut

end OpenMarkup

end CommentProse
