import CommentProse.Proofs.Prose.Gaps
import CommentProse.Proofs.Seams

/-! # Where fragments of a line meet

Markup between two fragments of prose is taken out of a passage, and the blanks around it meet. They
do not become one space: the first fragment of them that is not empty is kept as it is written, and
the others are dropped (`Analysis.junctions_keep_first_blanks`). So several spaces, a tab or a wide
blank before markup stay in the passage, and one space stays one whatever stands behind the markup.
-/

namespace CommentProse

theorem ByteRange.start_lt_stop_of_mem {range : ByteRange} {offset origin : Nat}
    (inside : origin ∈ range.shift offset) : range.start < range.stop := by
  simp only [mem_iff, shift] at inside
  omega

namespace PlacedItem

variable {offset : Nat} {items : List PlacedItem}

/-- No two items in order share an offset. -/
theorem InOrder.eq_of_mem (order : InOrder offset items) {placed other : PlacedItem}
    (member : placed ∈ items) (among : other ∈ items) {origin : Nat}
    (here : origin ∈ placed.range.shift offset) (there : origin ∈ other.range.shift offset) :
    placed = other := by
  simp only [ByteRange.mem_iff, ByteRange.shift] at here there
  rcases eq_or_ordered order.apart member among with same | before | behind
  · exact same
  · omega
  · omega

/-- What stands between two items of a part stands between them in the whole. -/
theorem InOrder.exists_append_of_part {before part after front between back : List PlacedItem}
    {first last : PlacedItem} (order : InOrder offset (before ++ part ++ after))
    (whole : before ++ part ++ after = front ++ first :: (between ++ last :: back))
    (firstIn : first ∈ part) (lastIn : last ∈ part)
    (firstPositive : first.range.start < first.range.stop)
    (lastPositive : last.range.start < last.range.stop) :
    ∃ early late, part = early ++ first :: (between ++ last :: late) := by
  have apart := order.apart
  obtain ⟨early, rest, rfl⟩ := List.append_of_mem firstIn
  rw [List.append_assoc, List.append_assoc, List.cons_append, ← List.append_assoc] at whole apart
  obtain ⟨rfl, behind⟩ := append_cons_inj_of_pairwise apart (Nat.not_le.mpr firstPositive) whole
  rw [List.pairwise_append, List.pairwise_cons] at apart
  obtain ⟨-, ⟨ahead, inOrder⟩, forward⟩ := apart
  have later : first.range.stop ≤ last.range.start := ahead last (behind ▸ by simp)
  -- The last item comes behind the first one, also within the part.
  have lastBehind : last ∈ rest := by
    rcases List.mem_append.mp lastIn with earlier | here
    · have := forward last (List.mem_append_right _ earlier) first List.mem_cons_self
      omega
    · rcases List.mem_cons.mp here with rfl | found
      · omega
      · exact found
  obtain ⟨gap, late, rfl⟩ := List.append_of_mem lastBehind
  rw [List.append_assoc, List.cons_append] at behind inOrder
  obtain ⟨rfl, -⟩ := append_cons_inj_of_pairwise inOrder (Nat.not_le.mpr lastPositive) behind
  exact ⟨early, late, rfl⟩

/-- The item that lies at the place of a visible character of a passage is among those of the
passage, and has the character. -/
theorem InOrder.mem_of_isPassageOf {before stretch after : List PlacedItem}
    (order : InOrder offset (before ++ stretch ++ after)) {text : List Char}
    {provenance : Provenance} (passage : ProseItem.IsPassageOf (stretch.map item) text provenance)
    {left right : List Char} {glyph : Glyph} (parts : text = left ++ glyph.char :: right)
    (visible : glyph.isVisible = true)
    (origin : provenance.origin? (width left) = some glyph.offset) {placed : PlacedItem}
    (among : placed ∈ before ++ stretch ++ after)
    (inside : glyph.offset ∈ placed.range.shift offset) :
    placed ∈ stretch ∧ glyph ∈ placed.item.glyphs := by
  obtain ⟨same, shown, char, place⟩ := passage.exists_visibleGlyph parts
    (by simpa [Glyph.isVisible] using visible)
  obtain rfl : same = glyph := Glyph.ext (Option.some.inj (place.symm.trans origin)) char
  obtain ⟨item, present, here, -⟩ := ProseItem.mem_visibleGlyphs.mp shown
  obtain ⟨other, within, rfl⟩ := List.mem_map.mp present
  have found : other ∈ before ++ stretch ++ after :=
    List.mem_append_left _ (List.mem_append_right _ within)
  have also := order.inside other found _ (ProseItem.offset_mem_bytes here)
  obtain rfl := order.eq_of_mem among found inside also
  exact ⟨within, here⟩

end PlacedItem

namespace SpannedLine

variable {settings : Settings} {offset : Nat} {line : SpannedLine}

/-- What a span contributes to the prose, in place. -/
def placedItem? (offset : Nat) (line : SpannedLine) (span : Span) : Option PlacedItem :=
  (line.proseItem? offset span).map (PlacedItem.mk span.range)

theorem placedItem?_of_prose (spanned : line.line.content.IsSpannedBy line.spans) {span : Span}
    (member : span ∈ line.spans) (prose : span.role = .prose) :
    line.placedItem? offset span =
      some ⟨span.range, .text ((line.textOf span).shift offset)⟩ := by
  have joins : ¬span.divides = true := by
    intro divides
    rw [spanned.role_of_divides member divides] at prose
    cases prose
  rw [placedItem?, proseItem?, if_neg joins, if_pos prose]
  rfl

theorem map_item_placedItem? (offset : Nat) (line : SpannedLine) (spans : List Span) :
    (spans.filterMap (line.placedItem? offset)).map PlacedItem.item =
      spans.filterMap (line.proseItem? offset) := by
  rw [List.map_filterMap]
  congr 1
  funext span
  rw [placedItem?, Option.map_map]
  exact congrFun Option.map_id _

/-- The end of the line, in place. -/
def placedEnd (offset : Nat) (line : SpannedLine) : PlacedItem :=
  ⟨⟨line.line.stop, line.line.stop + 1⟩, .lineEnd (offset + line.line.stop)⟩

/-- The items of a line with content, around a span of prose. -/
theorem placedItems_of_prose (spanned : line.line.content.IsSpannedBy line.spans)
    (content : ¬line.line.isBlank = true) {front back : List Span} {span : Span}
    (spans : line.spans = front ++ span :: back) (prose : span.role = .prose) :
    line.placedItems settings offset = front.filterMap (line.placedItem? offset) ++
      ⟨span.range, .text ((line.textOf span).shift offset)⟩ ::
        (back.filterMap (line.placedItem? offset) ++ [line.placedEnd offset]) := by
  have made : line.placedItem? offset span =
      some ⟨span.range, .text ((line.textOf span).shift offset)⟩ :=
    placedItem?_of_prose spanned (by rw [spans]; simp) prose
  have items : line.placedItems settings offset =
      line.spans.filterMap (line.placedItem? offset) ++ [line.placedEnd offset] := by
    rw [placedItems, if_neg content]
    rfl
  rw [items, spans, List.filterMap_append, List.filterMap_cons_some made, List.append_assoc,
    List.cons_append]

end SpannedLine

namespace Analysis

variable {settings : Settings} {block : Fragment} {analysis : Analysis} {passage : Passage}

/-- A passage is drafted from a stretch of the items of all lines. -/
theorem IsReadingOf.exists_draft (reading : analysis.IsReadingOf settings block)
    (member : passage ∈ analysis.passages) :
    ∃ before stretch after : List PlacedItem,
      analysis.lines.flatMap (·.placedItems settings analysis.offset) =
        before ++ stretch ++ after ∧
      ((stretch.map PlacedItem.item).foldl ProseItem.extend .empty).finish? =
        some (passage.text, passage.provenance) := by
  rw [reading.passages, ← reading.offset] at member
  obtain ⟨part, present, -, -, made⟩ := exists_section_of_mem_passagesOf member
  obtain ⟨items, among, finished⟩ := List.mem_filterMap.mp made
  obtain ⟨front, back, lines⟩ := exists_append_of_mem_sectionsOf present
  obtain ⟨before, after, parts, -⟩ := ProseItem.exists_append_of_mem_stretches among
  rw [← map_item_flatMap_placedItems] at parts
  obtain ⟨upTo, late, whole, frontParts, rfl⟩ := List.map_eq_append_iff.mp parts
  obtain ⟨early, stretch, rfl, rfl, rfl⟩ := List.map_eq_append_iff.mp frontParts
  refine ⟨front.flatMap (·.placedItems settings analysis.offset) ++ early, stretch,
    late ++ back.flatMap (·.placedItems settings analysis.offset), ?_, finished⟩
  rw [lines, List.flatMap_append, List.flatMap_append, whole]
  simp only [List.append_assoc]

theorem mem_itemsOf_of_stretch {before stretch after : List PlacedItem}
    (split : analysis.lines.flatMap (·.placedItems settings analysis.offset) =
      before ++ stretch ++ after) {item : ProseItem} (among : item ∈ stretch.map PlacedItem.item) :
    item ∈ itemsOf settings analysis.offset analysis.lines := by
  rw [← map_item_flatMap_placedItems, split]
  simp only [List.map_append, List.mem_append]
  exact .inl (.inr among)

/-- A visible character of a passage is prose of a line. -/
theorem IsReadingOf.exists_line_of_visible (reading : analysis.IsReadingOf settings block)
    (member : passage ∈ analysis.passages) {left right : List Char} {c : Char}
    (parts : passage.text = left ++ c :: right) (visible : isBlank c = false) :
    ∃ glyph : Glyph, glyph.char = c ∧
      passage.provenance.origin? (width left) = some glyph.offset ∧
      ∃ line ∈ analysis.lines, analysis.IsProseOf line glyph := by
  obtain ⟨before, stretch, after, split, made⟩ := reading.exists_draft member
  obtain ⟨glyph, shown, char, origin⟩ :=
    (ProseItem.isPassageOf_of_finish? made).exists_visibleGlyph parts visible
  refine ⟨glyph, char, origin, ?_⟩
  obtain ⟨item, among, here, -⟩ := ProseItem.mem_visibleGlyphs.mp shown
  obtain ⟨fragment, rfl⟩ := ProseItem.exists_text_of_mem_glyphs here
  obtain ⟨line, written, span, inside, prose, rfl⟩ :=
    exists_span_of_text_mem (mem_itemsOf_of_stretch split among)
  exact ⟨line, written, span, inside, prose, here⟩

/-- Visible characters of a passage that follow each other have between them the run that the items
between theirs leave, and these have no visible character. -/
theorem IsReadingOf.exists_run (reading : analysis.IsReadingOf settings block)
    (member : passage ∈ analysis.passages) {left gap right : List Char} {x y : Glyph}
    (parts : passage.text = left ++ x.char :: (gap ++ y.char :: right))
    (blank : allBlank gap = true) (xVisible : x.isVisible = true) (yVisible : y.isVisible = true)
    (xOrigin : passage.provenance.origin? (width left) = some x.offset)
    (yOrigin : passage.provenance.origin? (width (left ++ x.char :: gap)) = some y.offset)
    {front between back : List PlacedItem} {first last : PlacedItem}
    (whole : analysis.lines.flatMap (·.placedItems settings analysis.offset) =
      front ++ first :: (between ++ last :: back))
    (xIn : x.offset ∈ first.range.shift analysis.offset)
    (yIn : y.offset ∈ last.range.shift analysis.offset) :
    ∃ xText yText upTo tail lead rest, first.item = .text xText ∧ last.item = .text yText ∧
      xText.glyphs = upTo ++ x :: tail ∧ yText.glyphs = lead ++ y :: rest ∧
      tail.filter Glyph.isVisible = [] ∧
      ProseItem.visibleGlyphs (between.map PlacedItem.item) = [] ∧
      lead.filter Glyph.isVisible = [] ∧
      gap = ProseItem.runAfter
        ((between.map PlacedItem.item).foldl ProseItem.runAfter (tail.map Glyph.char))
        (.text ⟨yText.start, lead.map Glyph.char⟩) := by
  obtain ⟨before, stretch, after, split, made⟩ := reading.exists_draft member
  have order := reading.inOrder_placedItems analysis.offset
  have isPassage := ProseItem.isPassageOf_of_finish? made
  have firstAmong : first ∈ before ++ stretch ++ after := by rw [← split, whole]; simp
  have lastAmong : last ∈ before ++ stretch ++ after := by rw [← split, whole]; simp
  rw [split] at order whole
  obtain ⟨firstIn, xHere⟩ :=
    order.mem_of_isPassageOf isPassage parts xVisible xOrigin firstAmong xIn
  obtain ⟨lastIn, yHere⟩ := order.mem_of_isPassageOf isPassage
    (show passage.text = (left ++ x.char :: gap) ++ y.char :: right by simpa using parts) yVisible
    yOrigin lastAmong yIn
  obtain ⟨early, late, rfl⟩ := order.exists_append_of_part whole firstIn lastIn
    (ByteRange.start_lt_stop_of_mem xIn) (ByteRange.start_lt_stop_of_mem yIn)
  obtain ⟨xText, firstText⟩ := ProseItem.exists_text_of_mem_glyphs xHere
  obtain ⟨yText, lastText⟩ := ProseItem.exists_text_of_mem_glyphs yHere
  rw [firstText] at xHere
  rw [lastText] at yHere
  obtain ⟨upTo, tail, lead, rest, run⟩ := ProseItem.exists_run_of_passage
    (by simp only [List.map_append, List.map_cons, firstText, lastText]; rfl)
    order.part.pairwise_bytes made parts blank xVisible yVisible xOrigin yOrigin xHere yHere
  exact ⟨xText, yText, upTo, tail, lead, rest, firstText, lastText, run⟩

/-- A character that stands in a line is prose of no other line. -/
theorem IsReadingOf.eq_of_mem_content (reading : analysis.IsReadingOf settings block)
    {own line : SpannedLine} (ownMember : own ∈ analysis.lines) (member : line ∈ analysis.lines)
    {glyph : Glyph} (isProse : analysis.IsProseOf own glyph)
    (inside : glyph.offset ∈ line.line.content.range.shift analysis.offset) : own = line := by
  have bounds := isProse.bounds (reading.spanned own ownMember)
  have margin (line : CommentLine) : line.start ≤ line.content.start := Nat.le_add_right _ _
  have := margin own.line
  have := margin line.line
  have stop : line.line.content.stop = line.line.stop := rfl
  have := glyph.char.utf8Size_pos
  simp only [ByteRange.mem_iff, ByteRange.shift, Fragment.range] at inside
  rcases eq_or_ordered reading.pairwise_lines ownMember member with same | before | behind
  · exact same
  · omega
  · omega

/-- A place in a span is a place in its line. -/
theorem mem_content_of_mem_span {line : SpannedLine}
    (spanned : line.line.content.IsSpannedBy line.spans) {span : Span} (among : span ∈ line.spans)
    {offset origin : Nat} (inside : origin ∈ span.range.shift offset) :
    origin ∈ line.line.content.range.shift offset := by
  have bounds := spanned.tiles.pairwise.2 span among
  simp only [ByteRange.mem_iff, ByteRange.shift, Fragment.range] at inside ⊢
  omega

end Analysis

/-! ### The blanks at a junction -/

/-- The first of the texts that is not empty. -/
def firstNonempty (texts : List (List Char)) : List Char :=
  (texts.find? (!·.isEmpty)).getD []

theorem firstNonempty_singleton (text : List Char) : firstNonempty [text] = text := by
  cases text <;> rfl

theorem ProseItem.runAfter_firstNonempty (texts : List (List Char)) (fragment : Fragment) :
    runAfter (firstNonempty texts) (.text fragment) = firstNonempty (texts ++ [fragment.text]) := by
  rw [runAfter, firstNonempty, firstNonempty, List.find?_append]
  cases found : texts.find? (!·.isEmpty) with
  | none => cases empty : fragment.text.isEmpty <;> simp_all
  | some run =>
    have nonempty := List.find?_some found
    simp_all

/-- Within a line the run behind a visible character is the first text that is not empty. -/
theorem SpannedLine.foldl_runAfter_proseItem? (offset : Nat) (line : SpannedLine)
    {spans : List Span} (markup : ∀ span ∈ spans, span.divides = true → span.role = .markup)
    (texts : List (List Char)) :
    (spans.filterMap (line.proseItem? offset)).foldl ProseItem.runAfter (firstNonempty texts) =
      firstNonempty (texts ++ (spans.filter (·.role = .prose)).map fun span =>
        (line.textOf span).text) := by
  induction spans generalizing texts with
  | nil => simp
  | cons span spans ih =>
    have rest := ih fun other member => markup other (List.mem_cons_of_mem _ member)
    rw [List.filterMap_cons, List.filter_cons, proseItem?]
    by_cases divides : span.divides = true
    · have role := markup span List.mem_cons_self divides
      rw [if_pos divides, if_neg (by simp [role]), ← rest]
      rfl
    · by_cases prose : span.role = .prose
      · rw [if_neg divides, if_pos prose, if_pos (by simpa using prose), List.foldl_cons,
          ProseItem.runAfter_firstNonempty, rest, List.map_cons, List.append_assoc]
        rfl
      · rw [if_neg divides, if_neg prose, if_neg (by simpa using prose), rest]

namespace Analysis

/-- The items of all lines around two spans of prose of one line. -/
theorem IsReadingOf.exists_append_of_spans {settings : Settings} {block : Fragment}
    {analysis : Analysis} (reading : analysis.IsReadingOf settings block) {line : SpannedLine}
    (among : line ∈ analysis.lines) (content : ¬line.line.isBlank = true)
    {before middle after : List Span} {first last : Span}
    (spans : line.spans = before ++ first :: (middle ++ last :: after))
    (firstProse : first.role = .prose) (lastProse : last.role = .prose) :
    ∃ upTo onward, analysis.lines.flatMap (·.placedItems settings analysis.offset) =
      upTo ++ ⟨first.range, .text ((line.textOf first).shift analysis.offset)⟩ ::
        (middle.filterMap (line.placedItem? analysis.offset) ++
          ⟨last.range, .text ((line.textOf last).shift analysis.offset)⟩ :: onward) := by
  have spanned := reading.spanned line among
  obtain ⟨earlier, later, lines⟩ := List.append_of_mem among
  have items : line.placedItems settings analysis.offset = _ :=
    SpannedLine.placedItems_of_prose spanned content spans firstProse
  have made : line.placedItem? analysis.offset last =
      some ⟨last.range, .text ((line.textOf last).shift analysis.offset)⟩ :=
    SpannedLine.placedItem?_of_prose spanned (by rw [spans]; simp) lastProse
  rw [List.filterMap_append, List.filterMap_cons_some made] at items
  refine ⟨earlier.flatMap (·.placedItems settings analysis.offset) ++
    before.filterMap (line.placedItem? analysis.offset),
    after.filterMap (line.placedItem? analysis.offset) ++ line.placedEnd analysis.offset ::
      later.flatMap (·.placedItems settings analysis.offset), ?_⟩
  rw [lines, List.flatMap_append, List.flatMap_cons, items]
  simp only [List.append_assoc, List.cons_append, List.nil_append]

/-- For every comment that can be analysed: where two spans of prose of one line bring characters
that follow each other in a passage, with nothing but blanks between them, these blanks are the
first text that is not empty among the blanks at the end of the first span, the spans of prose
between the two, which are blank, and the blanks at the start of the second. -/
theorem junctions_keep_first_blanks (settings : Settings) (block : Fragment) {analysis : Analysis}
    (analysed : ofBlock settings block = .ok analysis) {passage : Passage}
    (member : passage ∈ analysis.passages) {left gap right : List Char} {x y : Char}
    (parts : passage.text = left ++ x :: (gap ++ y :: right)) (xVisible : isBlank x = false)
    (yVisible : isBlank y = false) (blank : allBlank gap = true) {line : SpannedLine}
    (among : line ∈ analysis.lines) {before middle after : List Span} {first last : Span}
    (spans : line.spans = before ++ first :: (middle ++ last :: after))
    (firstProse : first.role = .prose) (lastProse : last.role = .prose) {xOrigin yOrigin : Nat}
    (xPlace : passage.provenance.origin? (width left) = some xOrigin)
    (yPlace : passage.provenance.origin? (width (left ++ x :: gap)) = some yOrigin)
    (xIn : xOrigin ∈ first.range.shift analysis.offset)
    (yIn : yOrigin ∈ last.range.shift analysis.offset) :
    ∃ front tail lead back, (line.textOf first).text = front ++ x :: tail ∧
      (line.textOf last).text = lead ++ y :: back ∧ allBlank tail = true ∧
      (∀ span ∈ middle, span.role = .prose → allBlank (line.textOf span).text = true) ∧
      allBlank lead = true ∧
      gap = firstNonempty (tail :: (middle.filter (·.role = .prose)).map
        (fun span => (line.textOf span).text) ++ [lead]) := by
  have reading := isReadingOf_of_ofBlock analysed
  have spanned := reading.spanned line among
  have firstMember : first ∈ line.spans := by rw [spans]; simp
  have lastMember : last ∈ line.spans := by rw [spans]; simp
  have content : ¬line.line.isBlank = true := by
    obtain ⟨glyph, rfl, place, own, present, isProse⟩ :=
      reading.exists_line_of_visible member parts xVisible
    obtain rfl := Option.some.inj (place.symm.trans xPlace)
    obtain rfl := reading.eq_of_mem_content present among isProse
      (mem_content_of_mem_span spanned firstMember xIn)
    exact isProse.not_isBlank spanned (by simp [Glyph.isVisible, xVisible])
  obtain ⟨upTo, onward, whole⟩ := reading.exists_append_of_spans among content spans firstProse
    lastProse
  obtain ⟨_, _, front, tail, lead, back, ⟨⟩, ⟨⟩, firstGlyphs, lastGlyphs, tailBlank, middleBlank,
    leadBlank, run⟩ := @IsReadingOf.exists_run settings block analysis passage reading member left gap
      right ⟨xOrigin, x⟩ ⟨yOrigin, y⟩ parts blank (by simp [Glyph.isVisible, xVisible])
      (by simp [Glyph.isVisible, yVisible]) xPlace yPlace _ _ _ _ _ whole xIn yIn
  have markup : ∀ span ∈ middle, span.divides = true → span.role = .markup := by
    intro span inside
    exact spanned.role_of_divides (by rw [spans]; simp [inside])
  rw [SpannedLine.map_item_placedItem?] at middleBlank run
  rw [SpannedLine.visibleGlyphs_filterMap _ _ markup, List.flatMap_eq_nil_iff] at middleBlank
  refine ⟨_, _, _, _, Fragment.text_eq_of_glyphs firstGlyphs, Fragment.text_eq_of_glyphs lastGlyphs,
    Glyph.allBlank_map_char.mpr tailBlank, ?_, Glyph.allBlank_map_char.mpr leadBlank, ?_⟩
  · intro span inside prose
    have hidden := Fragment.allBlank_text.mpr (middleBlank span (by simp [inside, prose]))
    exact hidden
  · have inLine := SpannedLine.foldl_runAfter_proseItem? analysis.offset line markup
      [tail.map Glyph.char]
    rw [firstNonempty_singleton] at inLine
    rw [run, inLine, ProseItem.runAfter_firstNonempty]
    rfl

/-- The two spaces before a reference stay, though a space follows it. -/
theorem junctions_keep_first_blanks_spaces :
    ∃ analysis, ofBlock .standard ⟨0, "/** a  \x7b@code x\x7d b */".toList⟩ = .ok analysis ∧
      ∃ passage ∈ analysis.passages, passage.text = "a  b".toList ∧
        ∃ tail lead, allBlank tail = true ∧ allBlank lead = true ∧
          "  ".toList = firstNonempty [tail, lead] := by
  have analysed : ofBlock .standard ⟨0, "/** a  \x7b@code x\x7d b */".toList⟩ = .ok
      { offset := 0
        comment := ⟨" a  \x7b@code x\x7d b ".toList, []⟩
        lines :=
          [⟨⟨3, [' '], "a  \x7b@code x\x7d b ".toList, []⟩,
            [⟨.prose, ⟨4, 7⟩, false⟩, ⟨.markup, ⟨7, 9⟩, false⟩, ⟨.tagName, ⟨9, 13⟩, false⟩,
              ⟨.argument, ⟨13, 15⟩, false⟩, ⟨.markup, ⟨15, 16⟩, false⟩, ⟨.prose, ⟨16, 19⟩, false⟩]⟩]
        unfinished := []
        passages := [⟨0, 0, .description, "a  b".toList, ⟨[⟨4, 3⟩, ⟨17, 1⟩]⟩⟩] } := by
    decide +kernel
  obtain ⟨-, tail, lead, -, -, -, tailBlank, -, leadBlank, gap⟩ :=
    @junctions_keep_first_blanks .standard _ _ analysed _ (List.mem_singleton_self _) [] "  ".toList
      [] 'a' 'b' rfl (by decide) (by decide) (by decide) _ (List.mem_singleton_self _) []
      [⟨.markup, ⟨7, 9⟩, false⟩, ⟨.tagName, ⟨9, 13⟩, false⟩, ⟨.argument, ⟨13, 15⟩, false⟩,
        ⟨.markup, ⟨15, 16⟩, false⟩] [] _ _ rfl rfl rfl 4 17 rfl rfl (by decide) (by decide)
  exact ⟨_, analysed, _, List.mem_singleton_self _, rfl, tail, lead, tailBlank, leadBlank, gap⟩

end Analysis

end CommentProse
