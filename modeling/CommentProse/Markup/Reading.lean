import CommentProse.Markup.Span
import CommentProse.Markup.Unfinished

/-! # Reading markup

A line is read from left to right. Each step takes at least one character, says what it is, and
updates the open markup; markup may stay open at the end of the line and go on in the next. No
character is lost: the pieces of a step and what it leaves are the text it was given
(`OpenMarkup.append_step`), hence the pieces of a line are the line (`flatMap_text_read`).
-/

namespace CommentProse

/-- The outcome of one step of reading. -/
structure Advance where
  pieces : List Piece
  markup : OpenMarkup
  /-- The text that is still to be read. -/
  rest : List Char

namespace Advance

/-- The text that the step took. -/
def taken (advance : Advance) : List Char := advance.pieces.flatMap Piece.text

end Advance

namespace OpenMarkup

/-- Reads on in a tag: through its end, or to the end of the line. -/
def stepTag (settings : Settings) (markup : OpenMarkup) (tag : OpenTag) (text : List Char) :
    Advance :=
  match tag.close? text with
  | some (taken, rest) =>
    let verbatim := OpenElement.after settings tag (OpenTag.isSelfClosing taken) markup.verbatim
    ⟨[⟨.markup, tag.divides, taken⟩], { markup with tag := .none, verbatim }, rest⟩
  | .none => ⟨[⟨.markup, tag.divides, text⟩], { markup with tag := some (tag.carry text) }, []⟩

/-- Reads on in the excluded body of the innermost reference, and through the brace that closes
it. -/
def stepExcluded (settings : Settings) (markup : OpenMarkup) (reference : OpenReference)
    (outer : List OpenReference) (text : List Char) : Advance :=
  match OpenReference.splitExcluded reference.depth text with
  | (taken, [], depth) =>
    ⟨[⟨.argument, false, taken⟩], { markup with references := { reference with depth } :: outer },
      []⟩
  | (taken, brace :: rest, _) =>
    ⟨[⟨.argument, false, taken⟩, ⟨.markup, settings.referencesDivide, [brace]⟩],
      { markup with references := outer }, rest⟩

/-- Reads on to the target of the innermost reference. Blanks alone leave it to come. -/
def stepTarget (markup : OpenMarkup) (reference : OpenReference) (outer : List OpenReference)
    (text : List Char) : Advance :=
  let blanks := text.takeWhile isBlank
  let (target, rest) := OpenReference.splitTarget 0 (text.dropWhile isBlank)
  let mode := if target.isEmpty then .target else .running
  ⟨[⟨.argument, false, blanks ++ target⟩],
    { markup with references := { reference with mode } :: outer }, rest⟩

/-- The characters at which markup may start or end in running text. -/
def isMarkupChar (c : Char) : Bool := c == '<' || c == '{' || c == '}'

/-- Reads plain text from `c` up to the next character that may be markup. -/
def stepText (markup : OpenMarkup) (c : Char) (text : List Char) : Advance :=
  let role := if markup.verbatim.isSome then .markup else .prose
  ⟨[⟨role, false, c :: text.takeWhile (!isMarkupChar ·)⟩], markup,
    text.dropWhile (!isMarkupChar ·)⟩

/-- The open markup with another depth of plain braces in the innermost reference. -/
def withDepth (change : Nat → Nat) (markup : OpenMarkup) : OpenMarkup :=
  match markup.references with
  | [] => markup
  | reference :: outer =>
    { markup with references := { reference with depth := change reference.depth } :: outer }

/-- Reads the `<` at `place`: the start of a tag, or text. -/
def stepLess (settings : Settings) (markup : OpenMarkup) (place : Nat) (text : List Char) :
    Advance :=
  match TagForm.start? text with
  | some (form, taken, rest) =>
    let divides := form.divides settings
    ⟨[⟨.markup, divides, '<' :: taken⟩],
      { markup with tag := some ⟨place, form, .none, divides⟩ }, rest⟩
  | .none => markup.stepText '<' text

/-- The mode in which the body of a reference is read at first. -/
def bodyMode (settings : Settings) (name : String) : BodyMode :=
  match settings.bodyPolicy name with
  | .exclude => .excluded
  | .label => .target
  | .prose => .running

/-- Reads the `{` at `place`: the start of a reference, or a plain brace. -/
def stepOpen (settings : Settings) (markup : OpenMarkup) (place : Nat) (text : List Char) :
    Advance :=
  match OpenReference.name? text with
  | some (name, rest) =>
    let tag := String.ofList name
    ⟨[⟨.markup, settings.referencesDivide, ['{', '@']⟩, ⟨.tagName, false, name⟩],
      { markup with references := ⟨place, tag, 0, bodyMode settings tag⟩ :: markup.references },
      rest⟩
  | .none => (markup.withDepth (· + 1)).stepText '{' text

/-- Reads a `}`: the end of the innermost reference if its plain braces are closed, or text. -/
def stepClose (settings : Settings) (markup : OpenMarkup) (text : List Char) : Advance :=
  match markup.references with
  | [] => markup.stepText '}' text
  | reference :: outer =>
    if reference.depth = 0 then
      ⟨[⟨.markup, settings.referencesDivide, ['}']⟩], { markup with references := outer }, text⟩
    else (markup.withDepth (· - 1)).stepText '}' text

/-- Reads running text. -/
def stepRunning (settings : Settings) (markup : OpenMarkup) (place : Nat) (c : Char)
    (text : List Char) : Advance :=
  if c = '<' then markup.stepLess settings place text
  else if c = '{' then markup.stepOpen settings place text
  else if c = '}' then markup.stepClose settings text
  else markup.stepText c text

/-- Reads on with the text `c :: text` at `place`. A brace ends the wait for a target. -/
def step (settings : Settings) (markup : OpenMarkup) (place : Nat) (c : Char)
    (text : List Char) : Advance :=
  match markup.tag, markup.references with
  | some tag, _ => markup.stepTag settings tag (c :: text)
  | .none, reference :: outer =>
    match reference.mode with
    | .excluded => markup.stepExcluded settings reference outer (c :: text)
    | .target =>
      if c = '{' ∨ c = '}' then
        { markup with references := { reference with mode := .running } :: outer }.stepRunning
          settings place c text
      else markup.stepTarget reference outer (c :: text)
    | .running => markup.stepRunning settings place c text
  | .none, [] => markup.stepRunning settings place c text

/-! ### Nothing is lost -/

private theorem append_stepText (markup : OpenMarkup) (c : Char) (text : List Char) :
    (markup.stepText c text).taken ++ (markup.stepText c text).rest = c :: text := by
  simp [stepText, Advance.taken, List.takeWhile_append_dropWhile]

private theorem append_stepRunning (settings : Settings) (markup : OpenMarkup) (place : Nat)
    (c : Char) (text : List Char) :
    (markup.stepRunning settings place c text).taken ++
      (markup.stepRunning settings place c text).rest = c :: text := by
  rw [stepRunning]
  split
  · next less =>
    rw [stepLess]
    split
    · next read => simp [Advance.taken, ← TagForm.append_of_start? read, less]
    · rw [append_stepText, less]
  · split
    · next brace =>
      rw [stepOpen]
      split
      · next read => simp [Advance.taken, ← OpenReference.append_of_name? read, brace]
      · rw [append_stepText, brace]
    · split
      · next brace =>
        rw [stepClose]
        split
        · rw [append_stepText, brace]
        · split
          · simp [Advance.taken, brace]
          · rw [append_stepText, brace]
      · exact append_stepText markup c text

/-- What a step takes and what it leaves are the text it was given. -/
theorem append_step (settings : Settings) (markup : OpenMarkup) (place : Nat) (c : Char)
    (text : List Char) :
    (markup.step settings place c text).taken ++ (markup.step settings place c text).rest =
      c :: text := by
  rw [step]
  split
  · rw [stepTag]
    split
    · next closed => simp [Advance.taken, OpenTag.append_of_close? closed]
    · simp [Advance.taken]
  · next reference outer _ _ =>
    split
    · have whole := OpenReference.splitExcluded_append reference.depth (c :: text)
      rw [stepExcluded]
      split
      · next split => rw [split] at whole; simpa [Advance.taken] using whole
      · next split => rw [split] at whole; simpa [Advance.taken] using whole
    · split
      · exact append_stepRunning settings _ place c text
      · have whole := OpenReference.splitTarget_append 0 ((c :: text).dropWhile isBlank)
        simp only [stepTarget, Advance.taken, List.flatMap_cons, List.flatMap_nil,
          List.append_nil, List.append_assoc, whole]
        exact List.takeWhile_append_dropWhile
    · exact append_stepRunning settings markup place c text
  · exact append_stepRunning settings markup place c text

/-! ### Every step takes something -/

private theorem stepRunning_taken_ne_nil (settings : Settings) (markup : OpenMarkup) (place : Nat)
    (c : Char) (text : List Char) : (markup.stepRunning settings place c text).taken ≠ [] := by
  simp only [stepRunning, stepLess, stepOpen, stepClose, stepText, Advance.taken]
  repeat' split
  all_goals simp

theorem step_taken_ne_nil (settings : Settings) (markup : OpenMarkup) (place : Nat) (c : Char)
    (text : List Char) : (markup.step settings place c text).taken ≠ [] := by
  rw [step]
  split
  · next tag _ _ =>
    rw [stepTag]
    split
    · next taken rest closed =>
      simp only [Advance.taken, List.flatMap_cons, List.flatMap_nil, List.append_nil]
      exact OpenTag.ne_nil_of_close? closed
    · simp [Advance.taken]
  · next reference outer _ _ =>
    split
    · have whole := OpenReference.splitExcluded_append reference.depth (c :: text)
      rw [stepExcluded]
      split
      · next split => rw [split] at whole; simp_all [Advance.taken]
      · simp [Advance.taken]
    · split
      · exact stepRunning_taken_ne_nil settings _ place c text
      · next visible =>
        simp only [not_or] at visible
        cases blank : isBlank c <;>
          simp [stepTarget, Advance.taken, blank, OpenReference.splitTarget, visible]
    · exact stepRunning_taken_ne_nil settings markup place c text
  · exact stepRunning_taken_ne_nil settings markup place c text

theorem length_step_lt (settings : Settings) (markup : OpenMarkup) (place : Nat) (c : Char)
    (text : List Char) :
    (markup.step settings place c text).rest.length < (c :: text).length := by
  have whole := congrArg List.length (append_step settings markup place c text)
  have taken := List.length_pos_iff.2 (step_taken_ne_nil settings markup place c text)
  simp only [List.length_append] at whole
  omega

/-! ### Whole lines -/

/-- Reads a text at `place` to its end: its pieces, and the markup that is open then. -/
def read (settings : Settings) (markup : OpenMarkup) (place : Nat) :
    List Char → List Piece × OpenMarkup
  | [] => ([], markup)
  | c :: text =>
    let advance := markup.step settings place c text
    let (pieces, last) := read settings advance.markup (place + width advance.taken) advance.rest
    (advance.pieces ++ pieces, last)
termination_by text => text.length
decreasing_by exact length_step_lt settings markup place c text

/-- The pieces of a text are the text. -/
theorem flatMap_text_read (settings : Settings) (markup : OpenMarkup) (place : Nat)
    (text : List Char) : (markup.read settings place text).1.flatMap Piece.text = text := by
  fun_induction read settings markup place text with
  | case1 => rfl
  | case2 markup place c text advance pieces last rest ih =>
    rw [rest] at ih
    rw [List.flatMap_append, ih]
    exact append_step settings markup place c text

/-- Reads a line: its spans, and the markup that is open at its end. -/
def readLine (settings : Settings) (markup : OpenMarkup) (content : Fragment) :
    List Span × OpenMarkup :=
  let (pieces, last) := markup.read settings content.start content.text
  (Span.ofPieces content.start pieces, { last with reach := content.stop })

end OpenMarkup

end CommentProse
