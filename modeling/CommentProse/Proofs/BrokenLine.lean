import CommentProse.Proofs.Coverage
import CommentProse.Proofs.Markup.Breaking

/-! # Lines broken at a space in their prose

A line with a space in its prose can be read as two lines, one up to the space and one from behind
it, if the second is no tag line. A head that does not reach as far as the space is the head of the
first line (`TagHead.parse?_cut`), what is given up stays the same, and the spans of the two lines
are those of the one, broken at the space (`SpannedLine.ofLines_cut`).
-/

namespace CommentProse

/-! ### Tag lines -/

namespace TagHead

/-- The heads of a line and of its part before a space and `after`: the same, but for the end of
the body. -/
inductive Cut (after : List Char) : Option TagHead → Option TagHead → Prop where
  | none : Cut after none none
  | some (head : TagHead) (body : List Char) (rest : head.body.text = body ++ ' ' :: after) :
      Cut after (some head) (some { head with body := ⟨head.body.start, body⟩ })

theorem Cut.isSome_eq {after : List Char} {whole part : Option TagHead}
    (cut : Cut after whole part) : part.isSome = whole.isSome := by
  cases cut <;> rfl

variable {head : TagHead}

/-- A head that does not reach behind a space is the head of the part before the space, with the
body cut there. -/
theorem IsHeadOf.cut {start : Nat} {text after : List Char}
    (isHead : IsHeadOf ⟨start, text ++ ' ' :: after⟩ head)
    (reaches : head.body.start ≤ start + width text) :
    ∃ body, head.body.text = body ++ ' ' :: after ∧
      IsHeadOf ⟨start, text⟩ { head with body := ⟨head.body.start, body⟩ } := by
  have ⟨tiles, marker, named, name, ends, argument, word, bare⟩ := isHead
  obtain ⟨body, text_eq, body_eq⟩ := exists_between tiles.text (by
    have behind := tiles.body_start
    dsimp only at behind
    omega)
  have behind : head.behindName =
      behindName { head with body := ⟨head.body.start, body⟩ } ++ ' ' :: after := by
    simp [behindName, body_eq]
  rw [behind] at ends argument
  refine ⟨body, body_eq, ⟨tiles.marker, tiles.name, tiles.gap, tiles.argument, tiles.body,
    text_eq.symm⟩, marker, named, name, ?_, ⟨?_, ?_⟩, ?_, ?_⟩
  · intro c first
    exact ends c (List.mem_head?_append_of_mem_head? first)
  · intro given
    change head.argument.isSome = true at given
    obtain ⟨found, found_eq⟩ := Option.isSome_iff_exists.mp given
    obtain ⟨-, nonempty, visible, -⟩ := word found found_eq
    obtain ⟨c, rest, shape⟩ := List.exists_cons_of_ne_nil nonempty
    have member : c ∈ found.text := shape ▸ List.mem_cons_self
    exact ⟨(argument.mp given).1, c, by simp [behindName, found_eq, member], visible c member⟩
  · rintro ⟨takes, c, member, visible⟩
    exact argument.mpr ⟨takes, c, List.mem_append_left _ member, visible⟩
  · intro found given
    obtain ⟨gap, nonempty, visible, stops⟩ := word found given
    refine ⟨gap, nonempty, visible, fun c first => stops c ?_⟩
    rw [body_eq]
    exact List.mem_head?_append_of_mem_head? first
  · intro nothing
    change head.argument = none at nothing
    obtain ⟨noGap, -⟩ := bare nothing
    exact ⟨noGap, by simp [behindName, noGap, nothing]⟩

/-- If the head of a line does not reach behind a space, the part before the space has the same
head. -/
theorem parse?_cut (start : Nat) (text after : List Char)
    (reaches : ∀ head, parse? ⟨start, text ++ ' ' :: after⟩ = some head →
      head.body.start ≤ start + width text) :
    Cut after (parse? ⟨start, text ++ ' ' :: after⟩) (parse? ⟨start, text⟩) := by
  cases parsed : parse? ⟨start, text ++ ' ' :: after⟩ with
  | none =>
    cases part : parse? ⟨start, text⟩ with
    | none => exact .none
    | some head =>
      -- A tag line stays one with more behind it.
      obtain ⟨indent, c, rest, shape, blank, named⟩ :=
        isSome_parse?_iff.mp (Option.isSome_iff_exists.mpr ⟨head, part⟩)
      have whole : (parse? ⟨start, text ++ ' ' :: after⟩).isSome = true :=
        isSome_parse?_iff.mpr ⟨indent, c, rest ++ ' ' :: after, by simp_all, blank, named⟩
      rw [parsed] at whole
      cases whole
  | some head =>
    obtain ⟨body, rest, isHead⟩ := (parse?_eq_some_iff.mp parsed).cut (reaches head parsed)
    rw [parse?_eq_some_iff.mpr isHead]
    exact .some head body rest

end TagHead

theorem Span.Broken.within {offset : Nat} {whole first second : List Span}
    (broken : Broken offset whole first second) (front : List Span) :
    Broken offset (front ++ whole) (front ++ first) second := by
  obtain ⟨earlier, start, stop, back, lower, upper, rfl, rfl, rfl⟩ := broken
  exact ⟨front ++ earlier, start, stop, back, lower, upper, by simp, by simp, rfl⟩

/-! ### Contents -/

namespace CommentLine

/-- The line up to a space behind `text`. -/
def front (text : List Char) (line : CommentLine) : CommentLine :=
  { line with text, terminator := [] }

/-- The line from behind that space on. -/
def back (text after : List Char) (line : CommentLine) : CommentLine :=
  ⟨line.content.start + width text + 1, [], after, line.terminator⟩

end CommentLine

namespace OpenMarkup

variable (settings : Settings) (markup : OpenMarkup) {line : CommentLine} {text after : List Char}

/-- All prose of a tag line is in its body. -/
theorem body_start_le_of_prose {head : TagHead} (headed : line.tagHead? = some head) {span : Span}
    (member : span ∈ (markup.readContent settings line).1) (role : span.role = .prose) :
    head.body.start ≤ span.range.start := by
  have tiles : TagHead.Tiles line.content head := TagHead.tiles_of_parse? headed
  rw [readContent, headed] at member
  rcases List.mem_append.mp member with inHead | inBody
  · exact absurd role (tiles.of_mem_spans inHead).2
  · exact ((isSpannedBy_readLine settings markup head.body).tiles.pairwise.2 span inBody).1

/-- A line with a space in its prose is read like the line up to the space and then what follows. -/
theorem readContent_cut (parts : line.text = text ++ ' ' :: after)
    (prose : ∃ span ∈ (markup.readContent settings line).1,
      line.content.start + width text ∈ span.range ∧ span.role = .prose) :
    TagHead.Cut after line.tagHead? (line.front text).tagHead? ∧
      ∃ second, Span.Broken (line.content.start + width text) (markup.readContent settings line).1
          (markup.readContent settings (line.front text)).1 second ∧
        (markup.readContent settings (line.front text)).2.readLine settings
            (line.back text after).content =
          (second, (markup.readContent settings line).2) := by
  obtain ⟨span, member, here, role⟩ := prose
  have content : line.content = ⟨line.content.start, text ++ ' ' :: after⟩ := by
    rw [← parts]
    rfl
  have reaches : ∀ head, line.tagHead? = some head →
      head.body.start ≤ line.content.start + width text := fun head headed =>
    (body_start_le_of_prose settings markup headed member role).trans here.1
  have tiles : ∀ head, line.tagHead? = some head → TagHead.Tiles line.content head :=
    fun head => TagHead.tiles_of_parse?
  have cut : TagHead.Cut after line.tagHead? (line.front text).tagHead? := by
    have heads := TagHead.parse?_cut line.content.start text after (by rwa [← content])
    rwa [← content] at heads
  refine ⟨cut, ?_⟩
  have back : (line.back text after).content = ⟨line.content.start + width text + 1, after⟩ := rfl
  rw [readContent] at member ⊢
  rw [readContent, back]
  generalize line.tagHead? = whole at cut tiles member ⊢
  generalize (line.front text).tagHead? = part at cut ⊢
  cases cut with
  | none =>
    dsimp only at member ⊢
    rw [content] at member ⊢
    exact readLine_cut settings markup _ text after ⟨span, member, here, role⟩
  | some head body rest =>
    obtain ⟨front, whole, start, -⟩ := (tiles head rfl).isSpannedBy
    have bodyText : head.body = ⟨head.body.start, body ++ ' ' :: after⟩ := by rw [← rest]
    have place : line.content.start + width text = head.body.start + width body := by
      have size := congrArg width whole
      rw [content, rest] at size
      simp only [width_append, width_cons] at size
      omega
    have inBody : span ∈ (markup.readLine settings head.body).1 := by
      refine (List.mem_append.mp member).resolve_left fun inHead => ?_
      exact ((tiles head rfl).of_mem_spans inHead).2 role
    dsimp only
    rw [place] at here ⊢
    rw [bodyText] at inBody ⊢
    obtain ⟨second, broken, later⟩ :=
      readLine_cut settings markup _ body after ⟨span, inBody, here, role⟩
    exact ⟨second, broken.within head.spans, later⟩

end OpenMarkup

/-! ### Unfinished markup -/

namespace Span

theorem prose_of_lt {range : ByteRange} (visible : range.start < range.stop) :
    prose range = [⟨.prose, range, false⟩] := if_pos visible

/-- What becomes of prose when a range is made markup. -/
theorem relabelAll_prose (range source : ByteRange) :
    relabelAll range (prose source) =
      if min source.stop range.stop ≤ max source.start range.start then prose source
      else prose ⟨source.start, max source.start range.start⟩ ++
        ⟨.markup, ⟨max source.start range.start, min source.stop range.stop⟩, false⟩ ::
          prose ⟨min source.stop range.stop, source.stop⟩ := by
  by_cases visible : source.start < source.stop
  · rw [prose_of_lt visible, relabelAll, List.flatMap_singleton, relabel]
    simp only [reduceCtorEq, or_false]
    rfl
  · rw [prose, if_neg visible, if_pos (by omega)]
    rfl

/-- Relabelling a range before an offset changes prose around the offset only before it. -/
theorem relabelAll_prose_of_stop_le {range : ByteRange} {start stop offset : Nat}
    (before : range.stop ≤ offset) (lower : start ≤ offset) (upper : offset < stop) :
    ∃ cut kept, kept ≤ offset ∧
      relabelAll range (prose ⟨start, stop⟩) = cut ++ prose ⟨kept, stop⟩ ∧
      relabelAll range (prose ⟨start, offset⟩) = cut ++ prose ⟨kept, offset⟩ ∧
      relabelAll range (prose ⟨offset + 1, stop⟩) = prose ⟨offset + 1, stop⟩ := by
  simp only [relabelAll_prose, min_eq_right before, min_eq_right (before.trans upper.le)]
  rw [if_pos (show range.stop ≤ max (offset + 1) range.start by omega)]
  split
  · exact ⟨[], start, lower, rfl, rfl, rfl⟩
  · exact ⟨_ ++ [_], range.stop, before, (List.append_cons ..), (List.append_cons ..), rfl⟩

/-- Relabelling a range behind an offset changes prose around the offset only behind it. -/
theorem relabelAll_prose_of_lt_start {range : ByteRange} {start stop offset : Nat}
    (behind : offset < range.start) (lower : start ≤ offset) (upper : offset < stop) :
    ∃ cut kept, offset < kept ∧
      relabelAll range (prose ⟨start, stop⟩) = prose ⟨start, kept⟩ ++ cut ∧
      relabelAll range (prose ⟨start, offset⟩) = prose ⟨start, offset⟩ ∧
      relabelAll range (prose ⟨offset + 1, stop⟩) = prose ⟨offset + 1, kept⟩ ++ cut := by
  simp only [relabelAll_prose, max_eq_right (lower.trans behind.le)]
  rw [if_pos (show min offset range.stop ≤ range.start by omega),
    max_eq_right (show offset + 1 ≤ range.start from behind)]
  split
  · exact ⟨[], stop, upper, (List.append_nil _).symm, rfl, (List.append_nil _).symm⟩
  · exact ⟨_, range.start, behind, rfl, rfl, rfl⟩

/-- Spans that are broken at an offset stay so when a range without this offset is made markup. -/
theorem Broken.relabelAll {offset : Nat} {whole first second : List Span}
    (broken : Broken offset whole first second) {range : ByteRange} (outside : offset ∉ range) :
    Broken offset (relabelAll range whole) (relabelAll range first)
      (relabelAll range second) := by
  obtain ⟨front, start, stop, back, lower, upper, rfl, rfl, rfl⟩ := broken
  have append (left right : List Span) : Span.relabelAll range (left ++ right) =
      Span.relabelAll range left ++ Span.relabelAll range right := List.flatMap_append
  have around : (⟨.prose, ⟨start, stop⟩, false⟩ :: back : List Span) =
      prose ⟨start, stop⟩ ++ back := by
    rw [prose_of_lt (Nat.lt_of_le_of_lt lower upper)]
    rfl
  rw [around]
  simp only [append]
  by_cases before : range.stop ≤ offset
  · obtain ⟨cut, kept, least, whole, first, second⟩ :=
      relabelAll_prose_of_stop_le before lower upper
    rw [whole, first, second, prose_of_lt (Nat.lt_of_le_of_lt least upper)]
    exact ⟨Span.relabelAll range front ++ cut, kept, stop, _, least, upper, by simp, by simp, rfl⟩
  · have behind : offset < range.start := by
      rw [ByteRange.mem_iff] at outside
      omega
    obtain ⟨cut, kept, most, whole, first, second⟩ :=
      relabelAll_prose_of_lt_start behind lower upper
    rw [whole, first, second, prose_of_lt (Nat.lt_of_le_of_lt lower most)]
    exact ⟨_, start, kept, cut ++ Span.relabelAll range back, lower, most, by simp, rfl, by simp⟩

end Span

theorem Unfinished.relabel_broken {offset : Nat} {whole first second : List Span}
    (broken : Span.Broken offset whole first second) {unfinished : List Unfinished}
    (outside : ∀ item ∈ unfinished, offset ∉ item.range) :
    Span.Broken offset (relabel unfinished whole) (relabel unfinished first)
      (relabel unfinished second) := by
  induction unfinished generalizing whole first second with
  | nil => exact broken
  | cons item unfinished ih =>
    exact ih (broken.relabelAll (outside item List.mem_cons_self))
      fun other later => outside other (List.mem_cons_of_mem _ later)

/-! ### Comments -/

/-- A line with a space behind `text` that may start a new line: something visible stands on either
side, and what stands behind is no tag line. -/
structure CommentLine.BreaksAt (line : CommentLine) (text after : List Char) : Prop where
  parts : line.text = text ++ ' ' :: after
  visible : allBlank text = false
  visibleAfter : allBlank after = false
  headless : (line.back text after).tagHead? = none

namespace CommentLine.BreaksAt

variable {line : CommentLine} {text after : List Char}

theorem edge?_front (breaks : line.BreaksAt text after)
    (cut : TagHead.Cut after line.tagHead? (line.front text).tagHead?) :
    (line.front text).edge? = line.edge? := by
  have blank : line.isBlank = false := by
    have visible := breaks.visible
    rw [allBlank] at visible
    rw [isBlank, allBlank, breaks.parts, List.all_append, visible, Bool.false_and]
  have frontBlank : (line.front text).isBlank = false := breaks.visible
  rw [edge?, edge?, cut.isSome_eq, blank, frontBlank]

theorem edge?_back (breaks : line.BreaksAt text after) : (line.back text after).edge? = none := by
  have blank : (line.back text after).isBlank = false := breaks.visibleAfter
  rw [edge?, breaks.headless, blank]
  rfl

end CommentLine.BreaksAt

namespace OpenMarkup

variable {settings : Settings} {markup : OpenMarkup} {line : CommentLine} {text after : List Char}

/-- The lines from a broken one on are read, and markup is given up, as before. -/
theorem readLines_cut (breaks : line.BreaksAt text after)
    (prose : ∃ span ∈ ((markup.openAt line).readContent settings line).1,
      line.content.start + width text ∈ span.range ∧ span.role = .prose)
    (lines : List CommentLine) :
    TagHead.Cut after line.tagHead? (line.front text).tagHead? ∧
      ∃ first second later unfinished,
        Span.Broken (line.content.start + width text)
          ((markup.openAt line).readContent settings line).1 first second ∧
        markup.readLines settings (line :: lines) =
          (((markup.openAt line).readContent settings line).1 :: later, unfinished) ∧
        markup.readLines settings (line.front text :: line.back text after :: lines) =
          (first :: second :: later, unfinished) := by
  obtain ⟨cut, second, broken, behind⟩ := readContent_cut settings _ breaks.parts prose
  refine ⟨cut, _, second, _, _, broken, rfl, ?_⟩
  have front : markup.openAt (line.front text) = markup.openAt line := by
    rw [openAt, openAt, breaks.edge?_front cut]
  have given : markup.unfinishedBefore (line.front text) = markup.unfinishedBefore line := by
    rw [unfinishedBefore, unfinishedBefore, breaks.edge?_front cut]
  have content (markup : OpenMarkup) : markup.readContent settings (line.back text after) =
      markup.readLine settings (line.back text after).content := by
    rw [readContent, breaks.headless]
  have stays (markup : OpenMarkup) : markup.openAt (line.back text after) = markup ∧
      markup.unfinishedBefore (line.back text after) = [] := by
    rw [openAt, unfinishedBefore, breaks.edge?_back]
    exact ⟨rfl, rfl⟩
  rw [readLines, front, given]
  dsimp only
  rw [readLines]
  simp only [stays, content, behind, List.nil_append]
  rfl

end OpenMarkup

namespace SpannedLine

variable {settings : Settings} {markup : OpenMarkup} {lines : List CommentLine}
  {before behind : List SpannedLine} {line : SpannedLine} {text after : List Char}

theorem lines_eq_of_ofLines (shape : ofLines settings markup lines = before ++ line :: behind) :
    lines = before.map SpannedLine.line ++ line.line :: behind.map SpannedLine.line := by
  have all := congrArg (List.map SpannedLine.line) shape
  rwa [map_line_ofLines, List.map_append, List.map_cons] at all

theorem ofLines_append {front rest : List CommentLine} {earlier later : List (List Span)}
    {unfinished : List Unfinished}
    (read : markup.readLines settings (front ++ rest) = (earlier ++ later, unfinished))
    (lengths : front.length = earlier.length) :
    ofLines settings markup (front ++ rest) =
      ((front.zip earlier).map fun (line, spans) => ⟨line, Unfinished.relabel unfinished spans⟩) ++
        (rest.zip later).map fun (line, spans) => ⟨line, Unfinished.relabel unfinished spans⟩ := by
  rw [ofLines, read, List.zip_append lengths, List.map_append]

/-- Breaking a line at a space in its prose breaks its spans, and changes no other line and nothing
that is given up. -/
theorem ofLines_cut (shape : ofLines settings markup lines = before ++ line :: behind)
    (breaks : line.line.BreaksAt text after)
    (prose : ∃ span ∈ line.spans,
      line.line.content.start + width text ∈ span.range ∧ span.role = .prose) :
    TagHead.Cut after line.line.tagHead? (line.line.front text).tagHead? ∧
      ∃ first second, Span.Broken (line.line.content.start + width text) line.spans first second ∧
        ofLines settings markup (before.map SpannedLine.line ++ line.line.front text ::
            line.line.back text after :: behind.map SpannedLine.line) =
          before ++ ⟨line.line.front text, first⟩ :: ⟨line.line.back text after, second⟩ :: behind ∧
        (markup.readLines settings (before.map SpannedLine.line ++ line.line.front text ::
            line.line.back text after :: behind.map SpannedLine.line)).2 =
          (markup.readLines settings lines).2 := by
  obtain rfl := lines_eq_of_ofLines shape
  obtain ⟨given, -, read⟩ := OpenMarkup.readLines_append settings markup
    (before.map SpannedLine.line)
  have lengths := (OpenMarkup.forall₂_readLines settings markup
    (before.map SpannedLine.line)).length_eq
  generalize markup.behind settings (before.map SpannedLine.line) = opened at read
  generalize (markup.readLines settings (before.map SpannedLine.line)).1 = earlier at read lengths
  obtain ⟨later, unfinished, split⟩ : ∃ later unfinished,
      opened.readLines settings (line.line :: behind.map SpannedLine.line) =
        (((opened.openAt line.line).readContent settings line.line).1 :: later, unfinished) :=
    ⟨_, _, rfl⟩
  have whole := read (line.line :: behind.map SpannedLine.line)
  rw [split] at whole
  rw [ofLines_append whole lengths, List.zip_cons_cons, List.map_cons] at shape
  obtain ⟨same, rest⟩ := List.append_inj shape (by simp [← lengths])
  obtain ⟨here, others⟩ := List.cons.inj rest
  have source := congrArg SpannedLine.spans here
  dsimp only at source
  -- The prose around the space was read as prose, and nothing that is given up covers the space.
  obtain ⟨span, member, covers, role⟩ := prose
  rw [← source] at member
  obtain ⟨original, among, lower, upper, -, kept⟩ := Unfinished.mem_relabel member
  obtain ⟨sameRole, outside⟩ := kept.resolve_left (by simp [role])
  obtain ⟨cut, first, second, later', unfinished', broken, wholeRead, partRead⟩ :=
    OpenMarkup.readLines_cut breaks ⟨original, among, ⟨lower.trans covers.1,
      Nat.lt_of_lt_of_le covers.2 upper⟩, sameRole ▸ role⟩ (behind.map SpannedLine.line)
  rw [split] at wholeRead
  cases wholeRead
  have part := read (line.line.front text :: line.line.back text after ::
    behind.map SpannedLine.line)
  rw [partRead] at part
  refine ⟨cut, _, _, source ▸ Unfinished.relabel_broken broken
    fun item given => outside item given _ covers, ?_, ?_⟩
  · rw [ofLines_append part lengths, same, List.zip_cons_cons, List.zip_cons_cons, List.map_cons,
      List.map_cons, others]
  · rw [part, whole]

end SpannedLine

end CommentProse
