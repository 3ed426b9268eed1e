import CommentProse.Proofs.Markup.Reading
import CommentProse.Proofs.Markup.Relocation
import CommentProse.Proofs.Markup.Spaces

/-! # Breaking a text at a space in its prose

A step on a text with a space in it ends before the space and is the step on the text before, or
takes the space as something else than prose, or reads plain prose across the space
(`OpenMarkup.step_cut`). In the last case reading can stop at the space and go on behind it: what is
open there lets plain text go on. Hence a line with a space in its prose is read like two lines one
after the other (`OpenMarkup.read_cut`, `OpenMarkup.readLine_cut`).
-/

namespace CommentProse

/-! ### Pieces around a space -/

namespace Piece

/-- A text as a piece, or no piece if the text is empty. -/
def ofText (role : Role) (divides : Bool) (text : List Char) : List Piece :=
  if text = [] then [] else [⟨role, divides, text⟩]

/-- The pieces are broken in two at a space in a piece of this kind; the space goes to neither
part. -/
def Broken (role : Role) (divides : Bool) (whole first second : List Piece) : Prop :=
  ∃ front left right back, whole = front ++ ⟨role, divides, left ++ ' ' :: right⟩ :: back ∧
    first = front ++ ofText role divides left ∧ second = ofText role divides right ++ back

theorem flatMap_text_ofText (role : Role) (divides : Bool) (text : List Char) :
    (ofText role divides text).flatMap Piece.text = text := by
  rw [ofText]
  split
  · next empty => simp [empty]
  · simp

/-- The space behind `before` is in a piece that is not prose. -/
def HideBehind (before : List Char) (pieces : List Piece) : Prop :=
  ∃ role divides first second, Broken role divides pieces first second ∧
    first.flatMap text = before ∧ role ≠ .prose

section Broken

variable {role : Role} {divides : Bool} {whole first second : List Piece}

theorem Broken.within (broken : Broken role divides whole first second)
    (earlier later : List Piece) :
    Broken role divides (earlier ++ whole ++ later) (earlier ++ first) (second ++ later) := by
  obtain ⟨front, left, right, back, rfl, rfl, rfl⟩ := broken
  exact ⟨earlier ++ front, left, right, back ++ later, by simp, by simp, by simp⟩

theorem HideBehind.within {before : List Char} {pieces : List Piece}
    (hidden : HideBehind before pieces) (earlier later : List Piece) :
    HideBehind (earlier.flatMap text ++ before) (earlier ++ pieces ++ later) := by
  obtain ⟨role, divides, first, second, broken, rfl, notProse⟩ := hidden
  exact ⟨role, divides, _, _, broken.within earlier later, List.flatMap_append, notProse⟩

/-- A piece that is not prose hides all its spaces. -/
theorem hideBehind_of_eq (before : List Char) {more : List Char} {back : List Piece}
    (notProse : role ≠ .prose) :
    HideBehind before (⟨role, divides, before ++ ' ' :: more⟩ :: back) :=
  ⟨role, divides, _, _, ⟨[], before, more, back, rfl, rfl, rfl⟩, flatMap_text_ofText role divides _,
    notProse⟩

/-! ### Joining broken pieces -/

theorem join_cons (piece : Piece) (pieces : List Piece) :
    join (piece :: pieces) = if piece.text = [] then join pieces else cons piece (join pieces) := by
  by_cases empty : piece.text = [] <;> simp [join, empty]

/-- A piece that is put before others takes the first of them in or leaves them all as they are. -/
theorem exists_cons_eq (role : Role) (divides : Bool) {pieces : List Piece}
    (nonempty : ∀ piece ∈ pieces, piece.text ≠ []) :
    ∃ more back, pieces = ofText role divides more ++ back ∧
      ∀ text, cons ⟨role, divides, text⟩ pieces = ⟨role, divides, text ++ more⟩ :: back := by
  cases pieces with
  | nil => exact ⟨[], [], rfl, fun text => by simp [cons]⟩
  | cons next pieces =>
    have visible := nonempty next List.mem_cons_self
    by_cases same : role = next.role ∧ divides = next.divides
    · obtain ⟨rfl, rfl⟩ := same
      exact ⟨next.text, pieces, by simp [ofText, visible], fun text => by simp [cons]⟩
    · exact ⟨[], next :: pieces, rfl, fun text => by simp [cons, same]⟩

theorem Broken.cons (broken : Broken role divides whole first second) {piece : Piece}
    (visible : piece.text ≠ []) :
    Broken role divides (cons piece whole) (cons piece first) second := by
  obtain ⟨front, left, right, back, rfl, rfl, rfl⟩ := broken
  cases front with
  | cons next front =>
    simp only [List.cons_append, Piece.cons]
    split
    · exact ⟨_ :: front, left, right, back, rfl, rfl, rfl⟩
    · exact ⟨piece :: next :: front, left, right, back, rfl, rfl, rfl⟩
  | nil =>
    by_cases same : piece.role = role ∧ piece.divides = divides
    · obtain ⟨rfl, rfl⟩ := same
      refine ⟨[], piece.text ++ left, right, back, by simp [Piece.cons], ?_, rfl⟩
      cases left <;> simp [Piece.cons, ofText, visible]
    · refine ⟨[piece], left, right, back, by simp [Piece.cons, same], ?_, rfl⟩
      cases left <;> simp [Piece.cons, ofText, same]

/-- Joining commutes with breaking. -/
theorem Broken.join (broken : Broken role divides whole first second) :
    Broken role divides (join whole) (join first) (join second) := by
  obtain ⟨front, left, right, back, rfl, rfl, rfl⟩ := broken
  induction front with
  | nil =>
    have nonempty : ∀ piece ∈ Piece.join back, piece.text ≠ [] :=
      fun piece => text_ne_nil_of_mem_join
    obtain ⟨more, others, parts, cons_eq⟩ := exists_cons_eq role divides nonempty
    refine ⟨[], left, right ++ more, others, ?_, ?_, ?_⟩
    · rw [List.nil_append, join_cons, if_neg (by simp), cons_eq]
      simp
    · cases left <;> simp [ofText, Piece.join, Piece.cons]
    · by_cases empty : right = []
      · simp [empty, ofText, parts]
      · rw [ofText, if_neg empty, List.singleton_append, join_cons, if_neg empty, cons_eq]
        simp [ofText, empty]
  | cons piece front ih =>
    rw [List.cons_append, List.cons_append, join_cons, join_cons]
    split
    · exact ih
    · next visible => exact ih.cons visible

theorem HideBehind.join {before : List Char} {pieces : List Piece}
    (hidden : HideBehind before pieces) : HideBehind before (Piece.join pieces) := by
  obtain ⟨role, divides, first, second, broken, rfl, notProse⟩ := hidden
  exact ⟨role, divides, _, _, broken.join, flatMap_text_join first, notProse⟩

end Broken

end Piece

/-! ### Steps -/

/-- Plain text goes on where reading is resumed. -/
structure OpenMarkup.Resumes (markup : OpenMarkup) : Prop where
  tag : markup.tag = .none
  running : ∀ reference ∈ markup.references.head?, reference.mode = .running

namespace Advance

/-- What becomes of a step on `before` and a space when `after` is cut off with the space. -/
inductive Cut (before after : List Char) (whole part : Advance) : Prop where
  /-- The step ends before the space. -/
  | ends (same : whole = { part with rest := part.rest ++ ' ' :: after })
  /-- The step takes the space as something else than prose. -/
  | hides (hidden : Piece.HideBehind before whole.pieces)
  /-- The step reads plain prose across the space. -/
  | runs (markup : OpenMarkup) (resumes : markup.Resumes) (plain : markup.verbatim = none)
      (partly : part = ⟨Piece.ofText .prose false before, markup, []⟩)
      (wholly : whole = ⟨Piece.ofText .prose false (before ++ ' ' ::
        after.takeWhile (!OpenMarkup.isMarkupChar ·)), markup,
        after.dropWhile (!OpenMarkup.isMarkupChar ·)⟩)

end Advance

namespace OpenMarkup

variable (settings : Settings) {markup : OpenMarkup} (text after : List Char)

theorem Resumes.withDepth (resumes : markup.Resumes) (change : Nat → Nat) :
    (markup.withDepth change).Resumes := by
  obtain ⟨tag, references, verbatim, reach⟩ := markup
  cases references with
  | nil => exact resumes
  | cons reference outer =>
    refine ⟨resumes.tag, ?_⟩
    rintro _ ⟨⟩
    exact resumes.running reference rfl

theorem Resumes.step_eq (resumes : markup.Resumes) (place : Nat) (c : Char) :
    markup.step settings place c text = markup.stepRunning settings place c text := by
  obtain ⟨tag, references, verbatim, reach⟩ := markup
  obtain rfl : tag = .none := resumes.tag
  cases references with
  | nil => rfl
  | cons reference outer =>
    obtain ⟨start, name, depth, mode⟩ := reference
    obtain rfl : mode = .running := resumes.running _ rfl
    rfl

theorem Resumes.step_eq_stepText (resumes : markup.Resumes) (place : Nat) {c : Char}
    (plain : isMarkupChar c = false) :
    markup.step settings place c text = markup.stepText c text := by
  simp only [isMarkupChar, Bool.or_eq_false_iff, beq_eq_false_iff_ne] at plain
  rw [resumes.step_eq, stepRunning, if_neg plain.1.1, if_neg plain.1.2, if_neg plain.2]

theorem stepTag_cut (tag : OpenTag) :
    Advance.Cut text after (markup.stepTag settings tag (text ++ ' ' :: after))
      (markup.stepTag settings tag text) := by
  rw [stepTag, stepTag]
  rcases tag.close?_append_space text after with ⟨taken, rest, part, whole⟩ | across
  · rw [part, whole]
    exact .ends rfl
  · apply Advance.Cut.hides
    cases ended : tag.close? (text ++ ' ' :: after) with
    | none => exact Piece.hideBehind_of_eq _ (by decide)
    | some parts =>
      obtain ⟨taken, rest⟩ := parts
      obtain ⟨more, rfl⟩ := across taken rest ended
      exact Piece.hideBehind_of_eq _ (by decide)

theorem stepExcluded_cut (reference : OpenReference) (outer : List OpenReference) :
    Advance.Cut text after (markup.stepExcluded settings reference outer (text ++ ' ' :: after))
      (markup.stepExcluded settings reference outer text) := by
  rw [stepExcluded, stepExcluded]
  rcases OpenReference.splitExcluded_append_space reference.depth text after with
    ⟨taken, brace, rest, reached, part, whole⟩ | ⟨more, rest, reached, whole⟩
  · rw [part, whole]
    exact .ends rfl
  · rw [whole]
    apply Advance.Cut.hides
    cases rest with
    | nil => exact Piece.hideBehind_of_eq _ (by decide)
    | cons brace rest => exact Piece.hideBehind_of_eq _ (by decide)

theorem stepTarget_cut (reference : OpenReference) (outer : List OpenReference) :
    Advance.Cut text after (markup.stepTarget reference outer (text ++ ' ' :: after))
      (markup.stepTarget reference outer text) := by
  by_cases blank : ∀ c ∈ text, isBlank c = true
  · -- The space is one of the blanks before the target.
    apply Advance.Cut.hides
    rw [stepTarget]
    simp only [takeWhile_append_cons_of_pos blank (c := ' ') rfl after, List.append_assoc,
      List.cons_append]
    exact Piece.hideBehind_of_eq _ (by decide)
  · obtain ⟨c, member, visible⟩ : ∃ c ∈ text, isBlank c = false := by simpa using blank
    obtain ⟨blanks, target⟩ := takeWhile_append_of_exists (p := isBlank) ⟨c, member, visible⟩
      (' ' :: after)
    have cut := List.takeWhile_append_dropWhile (p := isBlank) (l := text)
    rw [stepTarget, stepTarget, blanks, target]
    rcases OpenReference.splitTarget_append_space 0 (text.dropWhile isBlank) after with
      whole | ⟨more, rest, whole⟩
    · rw [whole]
      exact .ends rfl
    · rw [whole]
      apply Advance.Cut.hides
      dsimp only
      rw [← List.append_assoc, cut]
      exact Piece.hideBehind_of_eq _ (by decide)

theorem stepText_cut (resumes : markup.Resumes) (c : Char) :
    Advance.Cut (c :: text) after (markup.stepText c (text ++ ' ' :: after))
      (markup.stepText c text) := by
  by_cases plain : ∀ d ∈ text, (!isMarkupChar d) = true
  · obtain ⟨runs, rest⟩ := takeWhile_append_cons_of_pos plain (c := ' ') rfl after
    cases element : markup.verbatim with
    | some open_element =>
      apply Advance.Cut.hides
      rw [stepText, element, runs]
      exact Piece.hideBehind_of_eq (c :: text) (by simp)
    | none =>
      refine .runs markup resumes element ?_ ?_
      · rw [stepText, element, List.takeWhile_eq_self_iff.mpr plain,
          List.dropWhile_eq_nil_iff.mpr plain]
        rfl
      · rw [stepText, element, runs, rest]
        rfl
  · obtain ⟨d, member, ends⟩ : ∃ d ∈ text, (!isMarkupChar d) = false := by simpa using plain
    obtain ⟨taken, rest⟩ := takeWhile_append_of_exists (p := (!isMarkupChar ·)) ⟨d, member, ends⟩
      (' ' :: after)
    rw [stepText, stepText, taken, rest]
    exact .ends rfl

theorem stepRunning_cut (resumes : markup.Resumes) (place : Nat) (c : Char) :
    Advance.Cut (c :: text) after (markup.stepRunning settings place c (text ++ ' ' :: after))
      (markup.stepRunning settings place c text) := by
  rw [stepRunning, stepRunning]
  split
  · next less =>
    rw [stepLess, stepLess, TagForm.start?_append_blank rfl]
    cases TagForm.start? text with
    | none => exact less ▸ stepText_cut text after resumes '<'
    | some parts => exact .ends rfl
  · split
    · next brace =>
      rw [stepOpen, stepOpen, OpenReference.name?_append_blank rfl]
      cases OpenReference.name? text with
      | none => exact brace ▸ stepText_cut text after (resumes.withDepth (· + 1)) '{'
      | some parts => exact .ends rfl
    · split
      · next brace =>
        obtain ⟨tag, references, verbatim, reach⟩ := markup
        cases references with
        | nil => exact brace ▸ stepText_cut text after resumes '}'
        | cons reference outer =>
          rw [stepClose, stepClose]
          dsimp only
          split
          · exact .ends rfl
          · exact brace ▸ stepText_cut text after (resumes.withDepth (· - 1)) '}'
      · exact stepText_cut text after resumes c

/-- A step on a text with a space in it, and the step on the text before the space. -/
theorem step_cut (markup : OpenMarkup) (place : Nat) (c : Char) :
    Advance.Cut (c :: text) after (markup.step settings place c (text ++ ' ' :: after))
      (markup.step settings place c text) := by
  obtain ⟨tag, references, verbatim, reach⟩ := markup
  cases tag with
  | some tag => exact stepTag_cut settings (c :: text) after tag
  | none =>
    cases references with
    | nil => exact stepRunning_cut settings text after ⟨rfl, by simp⟩ place c
    | cons reference outer =>
      obtain ⟨start, name, depth, mode⟩ := reference
      cases mode with
      | excluded => exact stepExcluded_cut settings (c :: text) after _ outer
      | running => exact stepRunning_cut settings text after ⟨rfl, by simp⟩ place c
      | target =>
        simp only [step]
        split
        · exact stepRunning_cut settings text after ⟨rfl, by simp⟩ place c
        · exact stepTarget_cut (c :: text) after _ outer

theorem stepRunning_space (resumes : markup.Resumes) (place : Nat) :
    Piece.HideBehind [] (markup.stepRunning settings place ' ' after).pieces ∨
      markup.Resumes ∧ markup.verbatim = .none ∧ markup.stepRunning settings place ' ' after =
        ⟨Piece.ofText .prose false (' ' :: after.takeWhile (!isMarkupChar ·)), markup,
          after.dropWhile (!isMarkupChar ·)⟩ := by
  have plain : markup.stepRunning settings place ' ' after = markup.stepText ' ' after := by
    simp [stepRunning]
  rw [plain, stepText]
  cases markup.verbatim with
  | some element => exact .inl (Piece.hideBehind_of_eq [] (by simp))
  | none => exact .inr ⟨resumes, rfl, rfl⟩

/-- A space at the start of a text is hidden, or it is plain prose. -/
theorem step_space (markup : OpenMarkup) (place : Nat) :
    Piece.HideBehind [] (markup.step settings place ' ' after).pieces ∨
      markup.Resumes ∧ markup.verbatim = .none ∧ markup.step settings place ' ' after =
        ⟨Piece.ofText .prose false (' ' :: after.takeWhile (!isMarkupChar ·)), markup,
          after.dropWhile (!isMarkupChar ·)⟩ := by
  obtain ⟨tag, references, verbatim, reach⟩ := markup
  cases tag with
  | some tag =>
    left
    change Piece.HideBehind [] (stepTag settings _ tag (' ' :: after)).pieces
    rw [stepTag]
    rcases tag.close?_append_space [] after with ⟨taken, rest, part, -⟩ | across
    · have nothing := OpenTag.append_of_close? part
      exact absurd (List.append_eq_nil_iff.mp nothing).1 (OpenTag.ne_nil_of_close? part)
    · cases ended : tag.close? (' ' :: after) with
      | none => exact Piece.hideBehind_of_eq [] (by decide)
      | some parts =>
        obtain ⟨taken, rest⟩ := parts
        obtain ⟨more, rfl⟩ := across taken rest ended
        exact Piece.hideBehind_of_eq [] (by decide)
  | none =>
    cases references with
    | nil => exact stepRunning_space settings after ⟨rfl, by simp⟩ place
    | cons reference outer =>
      obtain ⟨start, name, depth, mode⟩ := reference
      cases mode with
      | running => exact stepRunning_space settings after ⟨rfl, by simp⟩ place
      | excluded =>
        left
        rcases OpenReference.splitExcluded_append_space depth [] after with
          ⟨taken, brace, rest, reached, part, -⟩ | ⟨more, rest, reached, whole⟩
        · simp [OpenReference.splitExcluded] at part
        · rw [List.nil_append] at whole
          simp only [step, stepExcluded, whole]
          cases rest with
          | nil => exact Piece.hideBehind_of_eq [] (by decide)
          | cons brace rest => exact Piece.hideBehind_of_eq [] (by decide)
      | target =>
        left
        simp only [step, stepTarget, List.takeWhile_cons]
        exact Piece.hideBehind_of_eq [] (by decide)

/-! ### Texts -/

/-- Where reading is resumed in prose, plain text up to the next character that may be markup is
one more piece of prose. -/
theorem read_of_resumes (resumes : markup.Resumes) (plain : markup.verbatim = .none) (place : Nat)
    (text : List Char) :
    markup.read settings place text =
      (Piece.ofText .prose false (text.takeWhile (!isMarkupChar ·)) ++
        (markup.read settings (place + width (text.takeWhile (!isMarkupChar ·)))
          (text.dropWhile (!isMarkupChar ·))).1,
        (markup.read settings (place + width (text.takeWhile (!isMarkupChar ·)))
          (text.dropWhile (!isMarkupChar ·))).2) := by
  cases text with
  | nil => rfl
  | cons c text =>
    by_cases special : isMarkupChar c = true
    · simp [special, Piece.ofText]
    · have step : markup.step settings place c text = markup.stepText c text :=
        resumes.step_eq_stepText settings text place (by simpa using special)
      have scan : (!isMarkupChar c) = true := by simpa using special
      rw [read, step, stepText, plain]
      simp [scan, Piece.ofText, Advance.taken]

theorem read_cons (markup : OpenMarkup) (place : Nat) (c : Char) (text : List Char) :
    markup.read settings place (c :: text) =
      let advance := markup.step settings place c text
      let (pieces, last) :=
        advance.markup.read settings (place + width advance.taken) advance.rest
      (advance.pieces ++ pieces, last) := by
  rw [read]

/-- Reading on behind a step across a space, and reading on from the space. -/
theorem read_runs {next : OpenMarkup} (resumes : next.Resumes) (plain : next.verbatim = .none)
    (place : Nat) :
    ∃ second,
      Piece.Broken .prose false
        (Piece.ofText .prose false (text ++ ' ' :: after.takeWhile (!isMarkupChar ·)) ++
          (next.read settings
            (place + width (text ++ ' ' :: after.takeWhile (!isMarkupChar ·)))
            (after.dropWhile (!isMarkupChar ·))).1)
        (Piece.ofText .prose false text) second ∧
      next.read settings (place + width text + 1) after =
        (second, (next.read settings
          (place + width (text ++ ' ' :: after.takeWhile (!isMarkupChar ·)))
          (after.dropWhile (!isMarkupChar ·))).2) := by
  have size : place + width (text ++ ' ' :: after.takeWhile (!isMarkupChar ·)) =
      place + width text + 1 + width (after.takeWhile (!isMarkupChar ·)) := by
    rw [width_append, width_cons, show Char.utf8Size ' ' = 1 from rfl]
    omega
  have prose := read_of_resumes settings resumes plain (place + width text + 1) after
  rw [size]
  exact ⟨_, ⟨[], text, after.takeWhile (!isMarkupChar ·), _, by simp [Piece.ofText], rfl, rfl⟩,
    prose⟩

/-- A text with a space is read with the space hidden, or like its two parts one after the other:
what is read behind the space is what is read from where the text before it ends. -/
theorem read_cut (markup : OpenMarkup) (place : Nat) :
    Piece.HideBehind text (markup.read settings place (text ++ ' ' :: after)).1 ∨
      ∃ second, Piece.Broken .prose false (markup.read settings place (text ++ ' ' :: after)).1
          (markup.read settings place text).1 second ∧
        (markup.read settings place text).2.read settings (place + width text + 1) after =
          (second, (markup.read settings place (text ++ ' ' :: after)).2) := by
  fun_induction read settings markup place text
  case case1 markup place =>
    rw [List.nil_append, read_cons]
    rcases step_space settings after markup place with hidden | ⟨resumes, plain, step⟩
    · exact .inl (hidden.within [] _)
    · rw [step]
      have runs := read_runs settings [] after resumes plain place
      simp only [Advance.taken, Piece.flatMap_text_ofText]
      exact .inr runs
  case case2 markup place c text advance pieces last rest ih =>
    rw [List.cons_append, read_cons]
    have whole := append_step settings markup place c text
    rcases step_cut settings text after markup place c with
      same | hidden | ⟨next, resumes, plain, partly, wholly⟩
    · -- The step ends before the space, which is in what is still to be read.
      change markup.step settings place c (text ++ ' ' :: after) =
        { advance with rest := advance.rest ++ ' ' :: after } at same
      have size : place + width (c :: text) =
          place + width advance.taken + width advance.rest := by
        rw [← whole, width_append, Nat.add_assoc]
      rw [same]
      rw [rest] at ih
      rcases ih with hidden | ⟨second, broken, later⟩
      · left
        have behind := hidden.within advance.pieces []
        rw [List.append_nil] at behind
        exact whole ▸ behind
      · right
        have around := broken.within advance.pieces []
        rw [List.append_nil, List.append_nil] at around
        exact ⟨second, around, by rw [size]; exact later⟩
    · exact .inl (hidden.within [] _)
    · rw [wholly]
      change advance = _ at partly
      rw [partly, read] at rest
      obtain ⟨rfl, rfl⟩ := Prod.mk.inj rest
      have runs := read_runs settings (c :: text) after resumes plain place
      simp only [partly, Advance.taken, Piece.flatMap_text_ofText, List.append_nil]
      exact .inr runs

end OpenMarkup

/-! ### Lines -/

namespace Span

/-- A range as prose, or no span if the range is empty. -/
def prose (range : ByteRange) : List Span :=
  if range.start < range.stop then [⟨.prose, range, false⟩] else []

/-- The spans are broken in two at a byte of prose, which goes to neither part. -/
def Broken (offset : Nat) (whole first second : List Span) : Prop :=
  ∃ front start stop back, start ≤ offset ∧ offset < stop ∧
    whole = front ++ ⟨.prose, ⟨start, stop⟩, false⟩ :: back ∧
    first = front ++ prose ⟨start, offset⟩ ∧ second = prose ⟨offset + 1, stop⟩ ++ back

theorem place_ofText (start : Nat) (text : List Char) :
    place start (Piece.ofText .prose false text) = prose ⟨start, start + width text⟩ := by
  rw [Piece.ofText, prose]
  by_cases empty : text = []
  · simp [empty, place]
  · simp [empty, place, Nat.pos_of_ne_zero (mt width_eq_zero.mp empty)]

end Span

namespace Piece

theorem Broken.place {whole first second : List Piece}
    (broken : Broken .prose false whole first second) (start : Nat) :
    Span.Broken (start + width (first.flatMap text)) (Span.place start whole)
      (Span.place start first) (Span.place (start + width (first.flatMap text) + 1) second) := by
  obtain ⟨front, left, right, back, rfl, rfl, rfl⟩ := broken
  have space : Char.utf8Size ' ' = 1 := rfl
  simp only [List.flatMap_append, flatMap_text_ofText, Span.place_append, Span.place_ofText,
    width_append, Span.place, width_cons, space]
  refine ⟨Span.place start front, start + width (front.flatMap text),
    start + width (front.flatMap text) + (width left + (1 + width right)), _, by omega, by omega,
    rfl, ?_, ?_⟩
  · rw [Nat.add_assoc]
  · congr 2
    · congr 1
      omega
    · omega

theorem HideBehind.exists_span {before : List Char} {pieces : List Piece}
    (hidden : HideBehind before pieces) (start : Nat) :
    ∃ span ∈ Span.place start pieces, start + width before ∈ span.range ∧ span.role ≠ .prose := by
  obtain ⟨role, divides, first, second, ⟨front, left, right, back, rfl, rfl, -⟩, rfl, notProse⟩ :=
    hidden
  rw [Span.place_append, Span.place]
  refine ⟨_, List.mem_append_right _ List.mem_cons_self, ?_, notProse⟩
  have space : Char.utf8Size ' ' = 1 := rfl
  simp only [ByteRange.mem_iff, List.flatMap_append, flatMap_text_ofText, width_append, width_cons,
    space]
  omega

end Piece

namespace OpenMarkup

/-- Where the line before ended has no part in what is read. -/
theorem read_withReach (settings : Settings) (markup : OpenMarkup) (reach place : Nat)
    (text : List Char) :
    { markup with reach }.read settings place text =
      ((markup.read settings place text).1,
        { (markup.read settings place text).2 with reach }) := by
  have moved (markup : OpenMarkup) : markup.relocate id reach = { markup with reach } := by
    obtain ⟨tag, references, verbatim, last⟩ := markup
    have outer : references.map (·.relocate id) = references := List.map_id references
    rw [relocate, outer]
    cases tag <;> cases verbatim <;> rfl
  have here : Fragment.MovesTo id ⟨place, text⟩ ⟨place, text⟩ := ⟨rfl, fun _ _ => rfl⟩
  have read : (markup.relocate id reach).read settings place text = _ :=
    read_relocate settings markup here
  rwa [moved, moved] at read

/-- A line with a space in its prose is read like two lines, of which the second one goes on with
what is open behind the first. -/
theorem readLine_cut (settings : Settings) (markup : OpenMarkup) (start : Nat)
    (text after : List Char)
    (prose : ∃ span ∈ (markup.readLine settings ⟨start, text ++ ' ' :: after⟩).1,
      start + width text ∈ span.range ∧ span.role = .prose) :
    ∃ second, Span.Broken (start + width text)
        (markup.readLine settings ⟨start, text ++ ' ' :: after⟩).1
        (markup.readLine settings ⟨start, text⟩).1 second ∧
      (markup.readLine settings ⟨start, text⟩).2.readLine settings ⟨start + width text + 1, after⟩ =
        (second, (markup.readLine settings ⟨start, text ++ ' ' :: after⟩).2) := by
  rcases read_cut settings text after markup start with hidden | ⟨second, broken, later⟩
  · obtain ⟨other, among, there, notProse⟩ := hidden.join.exists_span start
    obtain ⟨span, member, here, role⟩ := prose
    have spanned := isSpannedBy_readLine settings markup ⟨start, text ++ ' ' :: after⟩
    rw [spanned.tiles.eq_of_mem among member there here] at notProse
    exact absurd role notProse
  · have parts := broken.join.place start
    rw [Piece.flatMap_text_join, flatMap_text_read] at parts
    refine ⟨_, parts, ?_⟩
    have stop : (Fragment.mk (start + width text + 1) after).stop =
        (Fragment.mk start (text ++ ' ' :: after)).stop := by
      simp only [Fragment.stop, width_append, width_cons, show Char.utf8Size ' ' = 1 from rfl]
      omega
    simp only [readLine, read_withReach, later, stop]
    rfl

end OpenMarkup

end CommentProse
