import CommentProse.Proofs.Comment.Wrapping
import CommentProse.Proofs.Junctions

/-! # The normal form of passages

A passage is never empty, begins and ends with a visible character, and has no line feed in it. What
stands between two visible characters is written by hand only within a line: characters of different
lines have exactly one space between them, whatever the lines between them and the blanks at their
ends are (`Analysis.passages_are_normal`).
-/

namespace CommentProse

theorem BeginsVisibly.append {text : List Char} (begins : BeginsVisibly text) (nonempty : text ≠ [])
    (more : List Char) : BeginsVisibly (text ++ more) := by
  intro c first
  rw [List.head?_append_of_ne_nil _ nonempty] at first
  exact begins c first

theorem BeginsVisibly.of_prefix {text kept : List Char} (begins : BeginsVisibly text)
    (front : kept <+: text) : BeginsVisibly kept := by
  obtain ⟨more, rfl⟩ := front
  cases kept with
  | nil => simp [BeginsVisibly]
  | cons c kept => exact begins

namespace Draft

variable {draft : Draft}

/-- The draft begins with a visible character, or has nothing yet and no space is due. -/
structure Opened (draft : Draft) : Prop where
  begins : BeginsVisibly draft.text
  settled : draft.text = [] → draft.joint = none

theorem opened_empty : empty.Opened := ⟨by simp [BeginsVisibly, empty], fun _ => rfl⟩

namespace Opened

theorem append (opened : draft.Opened) (fragment : Fragment) : (draft.append fragment).Opened := by
  obtain ⟨kept, shape⟩ : ∃ kept,
      kept = if draft.absorbsBlanks then fragment.dropWhile isBlank else fragment := ⟨_, rfl⟩
  rw [Draft.append, ← shape]
  split
  · exact opened
  · next nonempty =>
    have text : (draft.joined.push kept).text =
        draft.text ++ draft.due.map Glyph.char ++ kept.text := by
      rw [joined, due]
      cases draft.joint <;> simp [push]
    by_cases first : draft.text = []
    · have begins : BeginsVisibly kept.text := by
        rw [shape, if_pos (by simp [absorbsBlanks, first])]
        exact beginsVisibly_dropWhile fragment.text
      rw [first, due_of_joint (opened.settled first)] at text
      exact ⟨text ▸ begins, fun _ => joint_joined_push kept draft⟩
    · rw [List.append_assoc] at text
      exact ⟨text ▸ opened.begins.append first _, fun _ => joint_joined_push kept draft⟩

theorem endLine (opened : draft.Opened) (stop : Nat) : (draft.endLine stop).Opened := by
  rw [Draft.endLine]
  split
  · exact opened
  · next goesOn =>
    simp only [Bool.or_eq_true, not_or, Bool.not_eq_true, List.isEmpty_eq_false_iff] at goesOn
    refine ⟨opened.begins.of_prefix (trimEnd_isPrefix draft.text), fun empty => ?_⟩
    -- Text that begins visibly is not trimmed away.
    obtain ⟨c, text, written⟩ := List.exists_cons_of_ne_nil goesOn.1
    have visible := opened.begins c (by simp [written])
    have blank := trimEnd_eq_nil.mp (show trimEnd draft.text = [] from empty)
    simp [written, allBlank, visible] at blank

theorem foldl (opened : draft.Opened) (items : List ProseItem) :
    (items.foldl ProseItem.extend draft).Opened := by
  induction items generalizing draft with
  | nil => exact opened
  | cons item items ih =>
    cases item with
    | text fragment => exact ih (opened.append fragment)
    | lineEnd stop => exact ih (opened.endLine stop)
    | division => exact ih opened

theorem finish? (opened : draft.Opened) {text : List Char} {provenance : Provenance}
    (finished : draft.finish? = some (text, provenance)) : BeginsVisibly text := by
  rw [Draft.finish?] at finished
  split at finished
  · cases finished
  · obtain ⟨rfl, -⟩ := Prod.mk.inj (Option.some.inj finished)
    exact opened.begins.of_prefix (trimEnd_isPrefix draft.text)

end Opened

end Draft

namespace ProseItem.IsPassageOf

variable {stretch : List ProseItem} {text : List Char} {provenance : Provenance}

theorem ne_nil (passage : IsPassageOf stretch text provenance) : text ≠ [] := by
  obtain ⟨front, last, -, holds⟩ := passage
  have text_eq : text = (front ++ [last]).map Glyph.char := holds.text_eq
  simp [text_eq]

theorem endsVisibly (passage : IsPassageOf stretch text provenance) : EndsVisibly text := by
  obtain ⟨front, last, visible, holds⟩ := passage
  have text_eq : text = (front ++ [last]).map Glyph.char := holds.text_eq
  simpa [EndsVisibly, text_eq, Glyph.isVisible] using visible

/-- A passage has no character but those of its items and spaces. -/
theorem eq_space_or_mem (passage : IsPassageOf stretch text provenance) {c : Char}
    (member : c ∈ text) : c = ' ' ∨ ∃ fragment, .text fragment ∈ stretch ∧ c ∈ fragment.text := by
  obtain ⟨front, last, -, holds⟩ := passage
  have text_eq : text = (front ++ [last]).map Glyph.char := holds.text_eq
  rw [text_eq] at member
  obtain ⟨glyph, among, rfl⟩ := List.mem_map.mp member
  rcases holds.yields glyph (List.mem_append_left _ among) with here | ⟨space, -⟩
  · obtain ⟨item, present, inside⟩ := List.mem_flatMap.mp here
    obtain ⟨fragment, rfl⟩ := exists_text_of_mem_glyphs inside
    refine .inr ⟨fragment, present, ?_⟩
    rw [← map_char_glyphsOf fragment.start fragment.text]
    exact List.mem_map_of_mem inside
  · exact .inl space

end ProseItem.IsPassageOf

namespace Analysis

variable {settings : Settings} {block : Fragment} {analysis : Analysis} {passage : Passage}

/-- No line has a line feed in its content. -/
theorem IsReadingOf.lineFeed_notMem (reading : analysis.IsReadingOf settings block)
    {line : SpannedLine} (member : line ∈ analysis.lines) : '\n' ∉ line.line.text := by
  obtain ⟨written, among, -, text⟩ :=
    CommentLine.exists_written_of_mem_place (reading.line_mem member)
  have unbroken := (isWrittenLine_of_mem_splitLines analysis.comment.body written among).unbroken
  intro feed
  apply unbroken
  rw [← splitMargin_append written.1, text]
  exact List.mem_append_right _ feed

/-- The items of a line with a visible character, around the text with the character. -/
theorem IsProseOf.exists_placedItems (settings : Settings) {line : SpannedLine}
    (spanned : line.line.content.IsSpannedBy line.spans) {glyph : Glyph}
    (isProse : analysis.IsProseOf line glyph) (visible : glyph.isVisible = true) :
    ∃ early placed late, line.placedItems settings analysis.offset =
        early ++ placed :: (late ++ [line.placedEnd analysis.offset]) ∧
      glyph.offset ∈ placed.range.shift analysis.offset := by
  have content := isProse.not_isBlank spanned visible
  obtain ⟨span, among, prose, inside⟩ := isProse
  obtain ⟨front, back, spans⟩ := List.append_of_mem among
  have items : line.placedItems settings analysis.offset = _ :=
    SpannedLine.placedItems_of_prose spanned content spans prose
  refine ⟨_, _, _, items, ?_⟩
  exact (SpannedLine.bounds_of_mem_placedItems spanned (by rw [items]; simp)).2.2.2 _
    (Fragment.offset_mem_bytes inside)

theorem IsProseOf.mem_content {line : SpannedLine}
    (spanned : line.line.content.IsSpannedBy line.spans) {glyph : Glyph}
    (isProse : analysis.IsProseOf line glyph) :
    glyph.offset ∈ line.line.content.range.shift analysis.offset := by
  have bounds := isProse.bounds spanned
  have stop : line.line.content.stop = line.line.stop := rfl
  have := glyph.char.utf8Size_pos
  simp only [ByteRange.mem_iff, ByteRange.shift, Fragment.range]
  omega

/-- Characters of a passage are in order. -/
theorem IsReadingOf.offset_lt (reading : analysis.IsReadingOf settings block)
    (member : passage ∈ analysis.passages) {left gap right : List Char} {x y : Glyph}
    (parts : passage.text = left ++ x.char :: (gap ++ y.char :: right))
    (xOrigin : passage.provenance.origin? (width left) = some x.offset)
    (yOrigin : passage.provenance.origin? (width (left ++ x.char :: gap)) = some y.offset) :
    x.offset < y.offset := by
  obtain ⟨before, stretch, after, split, made⟩ := reading.exists_draft member
  have order := reading.inOrder_placedItems analysis.offset
  rw [split] at order
  obtain ⟨earlier, between, later, -, -, inOrder⟩ :=
    (ProseItem.isPassageOf_of_finish? made).exists_cut order.part.pairwise_bytes parts xOrigin
      yOrigin
  have ahead := (List.pairwise_cons.mp (List.pairwise_append.mp inOrder).2.1).1
  exact ahead y (by simp)

/-- The earlier of two lines with characters of a passage stands before the later one. -/
theorem IsReadingOf.exists_append_of_lines (reading : analysis.IsReadingOf settings block)
    {xLine yLine : SpannedLine} (xMember : xLine ∈ analysis.lines)
    (yMember : yLine ∈ analysis.lines)
    {x y : Glyph} (xProse : analysis.IsProseOf xLine x) (yProse : analysis.IsProseOf yLine y)
    (order : x.offset < y.offset) (apart : xLine ≠ yLine) :
    ∃ before between after, analysis.lines = before ++ xLine :: (between ++ yLine :: after) := by
  have xBounds := xProse.bounds (reading.spanned xLine xMember)
  have yBounds := yProse.bounds (reading.spanned yLine yMember)
  have margin (line : CommentLine) : line.start ≤ line.content.start := Nat.le_add_right _ _
  have := margin xLine.line
  have := x.char.utf8Size_pos
  have := y.char.utf8Size_pos
  have lines := reading.pairwise_lines
  obtain ⟨before, rest, whole⟩ := List.append_of_mem xMember
  rw [whole] at yMember lines ⊢
  rcases List.mem_append.mp yMember with earlier | here
  · have := (List.pairwise_append.mp lines).2.2 yLine earlier xLine List.mem_cons_self
    omega
  · obtain ⟨between, after, rfl⟩ :=
      List.append_of_mem ((List.mem_cons.mp here).resolve_left (Ne.symm apart))
    exact ⟨before, between, after, rfl⟩

/-- Between characters of different lines that follow each other in a passage stands one space. -/
theorem IsReadingOf.gap_of_lines (reading : analysis.IsReadingOf settings block)
    (member : passage ∈ analysis.passages) {left gap right : List Char} {x y : Glyph}
    (parts : passage.text = left ++ x.char :: (gap ++ y.char :: right))
    (blank : allBlank gap = true) (xVisible : x.isVisible = true) (yVisible : y.isVisible = true)
    (xOrigin : passage.provenance.origin? (width left) = some x.offset)
    (yOrigin : passage.provenance.origin? (width (left ++ x.char :: gap)) = some y.offset)
    {xLine yLine : SpannedLine} (xMember : xLine ∈ analysis.lines)
    (yMember : yLine ∈ analysis.lines)
    (xProse : analysis.IsProseOf xLine x) (yProse : analysis.IsProseOf yLine y)
    (apart : xLine ≠ yLine) : gap = [' '] := by
  have order := reading.offset_lt member parts xOrigin yOrigin
  obtain ⟨before, between, after, lines⟩ :=
    reading.exists_append_of_lines xMember yMember xProse yProse order apart
  obtain ⟨xEarly, xPlaced, xLate, xItems, xIn⟩ :=
    xProse.exists_placedItems settings (reading.spanned xLine xMember) xVisible
  obtain ⟨yEarly, yPlaced, yLate, yItems, yIn⟩ :=
    yProse.exists_placedItems settings (reading.spanned yLine yMember) yVisible
  have whole : analysis.lines.flatMap (·.placedItems settings analysis.offset) =
      (before.flatMap (·.placedItems settings analysis.offset) ++ xEarly) ++ xPlaced ::
        ((xLate ++ xLine.placedEnd analysis.offset ::
          (between.flatMap (·.placedItems settings analysis.offset) ++ yEarly)) ++ yPlaced ::
            (yLate ++ yLine.placedEnd analysis.offset ::
              after.flatMap (·.placedItems settings analysis.offset))) := by
    rw [lines]
    simp only [List.flatMap_append, List.flatMap_cons, xItems, yItems, List.append_assoc,
      List.cons_append, List.nil_append]
  obtain ⟨-, yText, -, tail, lead, -, -, -, -, -, -, -, -, run⟩ :=
    reading.exists_run member parts blank xVisible yVisible xOrigin yOrigin whole xIn yIn
  -- The end of the first line is among the items between the two characters.
  have ended : .lineEnd (analysis.offset + xLine.line.stop) ∈
      (xLate ++ xLine.placedEnd analysis.offset ::
        (between.flatMap (·.placedItems settings analysis.offset) ++ yEarly)).map PlacedItem.item :=
    List.mem_map.mpr ⟨xLine.placedEnd analysis.offset, by simp, rfl⟩
  rw [run, ProseItem.foldl_runAfter_of_lineEnd ended]
  rfl

/-- For every comment that can be analysed: a passage is not empty, neither begins nor ends with a
blank, and has no line feed. Visible characters that follow each other in it, with nothing but
blanks between them, stand in lines of the comment, and if these are different lines there is
exactly one space between the characters. -/
theorem passages_are_normal (settings : Settings) (block : Fragment) {analysis : Analysis}
    (analysed : ofBlock settings block = .ok analysis) {passage : Passage}
    (member : passage ∈ analysis.passages) :
    passage.text ≠ [] ∧ BeginsVisibly passage.text ∧ EndsVisibly passage.text ∧
    '\n' ∉ passage.text ∧
    ∀ left x gap y right, passage.text = left ++ x :: (gap ++ y :: right) → isBlank x = false →
      isBlank y = false → allBlank gap = true →
      ∃ xOrigin yOrigin, passage.provenance.origin? (width left) = some xOrigin ∧
        passage.provenance.origin? (width (left ++ x :: gap)) = some yOrigin ∧
        ∃ xLine ∈ analysis.lines, ∃ yLine ∈ analysis.lines,
          xOrigin ∈ xLine.line.content.range.shift analysis.offset ∧
          yOrigin ∈ yLine.line.content.range.shift analysis.offset ∧
          (xLine ≠ yLine → gap = [' ']) := by
  have reading := isReadingOf_of_ofBlock analysed
  obtain ⟨before, stretch, after, split, made⟩ := reading.exists_draft member
  have isPassage := ProseItem.isPassageOf_of_finish? made
  refine ⟨isPassage.ne_nil, (Draft.opened_empty.foldl _).finish? made, isPassage.endsVisibly,
    ?_, ?_⟩
  · intro feed
    rcases isPassage.eq_space_or_mem feed with space | ⟨fragment, among, inside⟩
    · cases space
    · obtain ⟨line, written, span, within, -, rfl⟩ :=
        exists_span_of_text_mem (mem_itemsOf_of_stretch split among)
      obtain ⟨left, right, parts, -, -⟩ := (reading.spanned line written).slice_part within
      apply reading.lineFeed_notMem written
      rw [show line.line.text = _ from parts]
      exact List.mem_append_left _ (List.mem_append_right _ inside)
  · intro left x gap y right parts xVisible yVisible blank
    obtain ⟨xGlyph, rfl, xOrigin, xLine, xMember, xProse⟩ :=
      reading.exists_line_of_visible member parts xVisible
    obtain ⟨yGlyph, rfl, yOrigin, yLine, yMember, yProse⟩ :=
      reading.exists_line_of_visible member
        (show passage.text = (left ++ xGlyph.char :: gap) ++ y :: right by simpa using parts)
        yVisible
    refine ⟨xGlyph.offset, yGlyph.offset, xOrigin, yOrigin, xLine, xMember, yLine, yMember,
      xProse.mem_content (reading.spanned xLine xMember),
      yProse.mem_content (reading.spanned yLine yMember), fun apart => ?_⟩
    exact reading.gap_of_lines member parts blank (by simp [Glyph.isVisible, xVisible])
      (by simp [Glyph.isVisible, yVisible]) xOrigin yOrigin xMember yMember xProse yProse apart

/-- Between the two lines stands one with a tag and nothing else. -/
theorem passages_are_normal_lines :
    ∃ analysis, ofBlock .standard ⟨0, "/** a \n * <b>\n *   b*/".toList⟩ = .ok analysis ∧
      ∃ passage ∈ analysis.passages, passage.text = "a b".toList ∧ BeginsVisibly passage.text ∧
        passage.provenance.origin? 0 = some 4 ∧ passage.provenance.origin? 2 = some 19 := by
  have analysed : ofBlock .standard ⟨0, "/** a \n * <b>\n *   b*/".toList⟩ = .ok
      { offset := 0
        comment := ⟨" a \n * <b>\n *   b".toList, []⟩
        lines :=
          [⟨⟨3, [' '], "a ".toList, ['\n']⟩, [⟨.prose, ⟨4, 6⟩, false⟩]⟩,
          ⟨⟨7, " * ".toList, "<b>".toList, ['\n']⟩, [⟨.markup, ⟨10, 13⟩, false⟩]⟩,
          ⟨⟨14, " * ".toList, "  b".toList, []⟩, [⟨.prose, ⟨17, 20⟩, false⟩]⟩]
        unfinished := []
        passages := [⟨0, 0, .description, "a b".toList, ⟨[⟨4, 2⟩, ⟨19, 1⟩]⟩⟩] } := by
    decide +kernel
  obtain ⟨-, begins, -, -, gaps⟩ :=
    passages_are_normal .standard _ analysed (List.mem_singleton_self _)
  obtain ⟨xOrigin, yOrigin, first, last, -⟩ :=
    gaps [] 'a' [' '] 'b' [] rfl (by decide) (by decide) (by decide)
  obtain rfl : 4 = xOrigin := Option.some.inj first
  obtain rfl : 19 = yOrigin := Option.some.inj last
  exact ⟨_, analysed, _, List.mem_singleton_self _, rfl, begins, first, last⟩

end Analysis

end CommentProse
