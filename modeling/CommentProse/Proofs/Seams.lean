import CommentProse.Proofs.ArgumentCut
import CommentProse.Proofs.Markup.Signs
import CommentProse.Proofs.Parting
import CommentProse.Proofs.Prose.Neighbours

/-! # What opens across a seam

Prose of a line never opens markup, but a passage is put together from what is left when the markup
is taken out, with nothing in its place. So two parts of a line that are harmless by themselves may
meet in a passage, and open there what neither opens in the comment. Only then does a passage show
the opening of a tag, an element or a reference (`Analysis.openings_run_across_seams`).
-/

namespace CommentProse

/-- A character of a fragment cuts its text. -/
theorem Fragment.exists_append_of_mem_glyphs {fragment : Fragment} {glyph : Glyph}
    (member : glyph ∈ fragment.glyphs) :
    ∃ left right, fragment.text = left ++ glyph.char :: right ∧
      fragment.start + width left = glyph.offset := by
  obtain ⟨start, text⟩ := fragment
  simp only [glyphs] at member ⊢
  induction text generalizing start with
  | nil => simp at member
  | cons c text ih =>
    rcases List.mem_cons.mp member with rfl | later
    · exact ⟨[], text, rfl, rfl⟩
    · obtain ⟨left, right, rfl, place⟩ := ih _ later
      exact ⟨c :: left, right, rfl, by rw [width_cons, ← place, Nat.add_assoc]⟩

/-- Where bytes increase, none lies between two neighbours. -/
theorem Glyph.between_neighbours {glyphs : List Glyph} {x y : Glyph}
    (ordered : (glyphs.flatMap bytes).Pairwise (· < ·)) (next : [x, y] <:+: glyphs) :
    x.offset + x.char.utf8Size ≤ y.offset ∧
      ∀ byte ∈ glyphs.flatMap bytes, byte < x.offset + x.char.utf8Size ∨ y.offset ≤ byte := by
  obtain ⟨before, after, rfl⟩ := next
  have parts : before ++ [x, y] ++ after = (before ++ [x]) ++ ([y] ++ after) := by simp
  rw [parts] at ordered ⊢
  simp only [List.flatMap_append, List.flatMap_singleton, List.pairwise_append,
    List.mem_append] at ordered ⊢
  have xSize := x.char.utf8Size_pos
  constructor
  · have lastByte : x.offset + (x.char.utf8Size - 1) ∈ x.bytes :=
      List.mem_range'_1.mpr ⟨Nat.le_add_right _ _, by omega⟩
    have := ordered.2.2 _ (.inr lastByte) _ (.inl y.offset_mem_bytes)
    omega
  · rintro byte ((early | inX) | inY | late)
    · have := ordered.1.2.2 byte early _ x.offset_mem_bytes
      omega
    · exact .inl (List.mem_range'_1.mp inX).2
    · exact .inr (List.mem_range'_1.mp inY).1
    · exact .inr (Nat.le_of_lt (ordered.2.1.2.2 _ y.offset_mem_bytes byte late))

/-! ### How a line was read -/

namespace OpenMarkup

/-- Each line is read with some markup open. -/
theorem forall₂_readContent (settings : Settings) (markup : OpenMarkup) (lines : List CommentLine) :
    List.Forall₂ (fun line spans => ∃ before : OpenMarkup,
      spans = (before.readContent settings line).1) lines (markup.readLines settings lines).1 := by
  induction lines generalizing markup with
  | nil => exact .nil
  | cons line lines ih => exact .cons ⟨_, rfl⟩ (ih _)

/-- Prose of a line is prose of a text at its end, read with some markup open. -/
theorem exists_mark_of_mem_readContent {settings : Settings} {markup : OpenMarkup}
    {line : CommentLine} {span : Span} (member : span ∈ (markup.readContent settings line).1)
    (prose : span.role = .prose) {offset : Nat} (inside : offset ∈ span.range) :
    ∃ place text left front c back, line.text = left ++ text ∧
      Piece.marks (markup.read settings place text).1 = front ++ (c, .prose) :: back ∧
      line.content.start + width (left ++ front.map Prod.fst) ≤ offset ∧
      offset < line.content.start + width (left ++ front.map Prod.fst) + c.utf8Size := by
  rw [readContent] at member
  split at member
  · next head parsed =>
    have tiles : TagHead.Tiles line.content head := TagHead.tiles_of_parse? parsed
    obtain ⟨left, parts, start, -⟩ := tiles.isSpannedBy
    rcases List.mem_append.mp member with inHead | inBody
    · exact absurd prose (tiles.of_mem_spans inHead).2
    · obtain ⟨front, c, back, marks, bounds⟩ := exists_mark_of_mem_readLine inBody inside
      rw [start, Nat.add_assoc, ← width_append] at bounds
      exact ⟨_, _, left, front, c, back, parts, prose ▸ marks, bounds⟩
  · obtain ⟨front, c, back, marks, bounds⟩ := exists_mark_of_mem_readLine member inside
    exact ⟨_, _, [], front, c, back, rfl, prose ▸ marks, bounds⟩

end OpenMarkup

namespace Analysis

variable {settings : Settings} {block : Fragment} {analysis : Analysis} {line : SpannedLine}

/-- Nothing opens at prose of a line. -/
theorem not_opens_of_prose (analysed : ofBlock settings block = .ok analysis)
    (member : line ∈ analysis.lines) {span : Span} (among : span ∈ line.spans)
    (prose : span.role = .prose) {left right : List Char} {c : Char}
    (parts : line.line.text = left ++ c :: right)
    (inside : line.line.content.start + width left ∈ span.range) (construct : Construct) :
    ¬construct.Opens (c :: right) := by
  obtain ⟨comment, parsed, rfl⟩ := ofBlock_eq_ok_iff.mp analysed
  obtain ⟨⟨written, spans⟩, paired, rfl⟩ := List.mem_map.mp member
  obtain ⟨before, rfl⟩ := List.forall₂_iff_zip.mp
    (OpenMarkup.forall₂_readContent settings .none comment.lines) |>.2 paired
  obtain ⟨source, present, lower, upper, -, kept⟩ := Unfinished.mem_relabel among
  have role := (kept.resolve_left (by simp [prose])).1
  obtain ⟨place, text, margin, front, d, back, written_eq, marks, first, last⟩ :=
    OpenMarkup.exists_mark_of_mem_readContent present (role.symm.trans prose)
      ⟨Nat.le_trans lower inside.1, Nat.lt_of_lt_of_le inside.2 upper⟩
  have spelled : left ++ c :: right = (margin ++ front.map Prod.fst) ++ d :: back.map Prod.fst := by
    rw [← parts, List.append_assoc, ← OpenMarkup.text_eq_of_marks marks]
    exact written_eq
  obtain ⟨rfl, rfl⟩ := eq_of_char_around spelled (Nat.le_refl _)
    (Nat.lt_add_of_pos_right c.utf8Size_pos) first last
  obtain rfl := (List.cons.inj (List.append_cancel_left spelled)).2
  exact OpenMarkup.not_opens_of_mark marks

/-- The text between a character in a line and the end of the line is the rest of the line. -/
theorem IsReadingOf.exists_append_of_text (reading : analysis.IsReadingOf settings block)
    (member : line ∈ analysis.lines) {before behind after : List Char} {c : Char}
    (raw : block.text = before ++ c :: behind ++ after)
    (inside : line.line.content.start ≤ width before)
    (upTo : width (before ++ c :: behind) = line.line.stop) :
    ∃ left, line.line.text = left ++ c :: behind ∧
      line.line.content.start + width left = width before := by
  obtain ⟨front, back, whole, start⟩ := reading.content_occursIn member
  have stop : line.line.stop = line.line.content.start + width line.line.content.text := rfl
  -- Both cuts of the comment end with the line.
  obtain ⟨same, -⟩ := append_inj_of_width (raw.symm.trans whole) (by
    rw [upTo, stop, width_append, start])
  obtain ⟨left, rfl, rest⟩ := exists_between same.symm (by rw [start]; exact inside)
  exact ⟨left, rest, by rw [width_append, start]⟩

/-- For every comment that can be analysed: at no character of a span of prose does the rest of the
line, whatever of it is prose, begin with a tag or a reference. -/
theorem prose_opens_nothing (settings : Settings) (block : Fragment) {analysis : Analysis}
    (analysed : ofBlock settings block = .ok analysis) {line : SpannedLine}
    (member : line ∈ analysis.lines) {span : Span} (among : span ∈ line.spans)
    (prose : span.role = .prose) {before behind after : List Char} {c : Char}
    (raw : block.text = before ++ c :: behind ++ after) (inside : width before ∈ span.range)
    (upTo : width (before ++ c :: behind) = line.line.stop) :
    (c = '<' → TagForm.start? behind = none) ∧
      (c = '\x7b' → OpenReference.name? behind = none) := by
  have reading := isReadingOf_of_ofBlock analysed
  obtain ⟨-, bounds⟩ := (reading.spanned line member).tiles.pairwise
  obtain ⟨left, parts, place⟩ := reading.exists_append_of_text member raw
    (Nat.le_trans (bounds span among).1 inside.1) upTo
  have closed := not_opens_of_prose analysed member among prose parts (place ▸ inside)
  constructor
  · rintro rfl
    apply Option.not_isSome_iff_eq_none.mp
    intro starts
    obtain ⟨construct, opens⟩ := Construct.opens_of_start? starts
    exact closed construct opens
  · rintro rfl
    apply Option.not_isSome_iff_eq_none.mp
    intro named
    obtain ⟨construct, opens⟩ := Construct.opens_of_name? named
    exact closed construct opens

/-- Signs that open nothing are prose, between a tag and a plain brace. -/
theorem prose_opens_nothing_less :
    ∃ analysis, ofBlock .standard ⟨0, "/** a < b <i>c \x7bd */".toList⟩ = .ok analysis ∧
      TagForm.start? " b <i>c \x7bd ".toList = none ∧ OpenReference.name? "d ".toList = none := by
  have analysed : ofBlock .standard ⟨0, "/** a < b <i>c \x7bd */".toList⟩ = .ok
      { offset := 0
        comment := ⟨" a < b <i>c \x7bd ".toList, []⟩
        lines :=
          [⟨⟨3, [' '], "a < b <i>c \x7bd ".toList, []⟩,
            [⟨.prose, ⟨4, 10⟩, false⟩, ⟨.markup, ⟨10, 13⟩, false⟩, ⟨.prose, ⟨13, 18⟩, false⟩]⟩]
        unfinished := []
        passages := [⟨0, 0, .description, "a < b c \x7bd".toList, ⟨[⟨4, 6⟩, ⟨13, 4⟩]⟩⟩] } := by
    decide +kernel
  have less := @prose_opens_nothing .standard _ _ analysed _ (List.mem_singleton_self _)
    ⟨.prose, ⟨4, 10⟩, false⟩ (by decide) rfl "/** a ".toList " b <i>c \x7bd ".toList "*/".toList '<'
    rfl (by decide) rfl
  have brace := @prose_opens_nothing .standard _ _ analysed _ (List.mem_singleton_self _)
    ⟨.prose, ⟨13, 18⟩, false⟩ (by decide) rfl "/** a < b <i>c ".toList "d ".toList "*/".toList '\x7b'
    rfl (by decide) rfl
  exact ⟨_, analysed, less.1 rfl, brace.2 rfl⟩

/-! ### Neighbours in the comment -/

/-- The characters of all lines, with a space for the end of each line that has content. -/
def streamOf (settings : Settings) (analysis : Analysis) : List Glyph :=
  (itemsOf settings analysis.offset analysis.lines).flatMap ProseItem.stream

/-- A passage as a list of characters, in which visible neighbours are neighbours of the comment. -/
theorem IsReadingOf.exists_neighbours_of_mem_passages
    (reading : analysis.IsReadingOf settings block)
    {passage : Passage} (member : passage ∈ analysis.passages) :
    ∃ glyphs : List Glyph, passage.text = glyphs.map Glyph.char ∧
      passage.provenance.offsets = glyphs.flatMap Glyph.bytes ∧
      glyphs.IsChain (Glyph.Neighbours (analysis.streamOf settings)) := by
  rw [reading.passages, ← reading.offset] at member
  obtain ⟨part, present, -, -, made⟩ := exists_section_of_mem_passagesOf member
  obtain ⟨stretch, among, glyphs, text, offsets, chain⟩ :=
    ProseItem.exists_neighbours_of_mem_passages made
  refine ⟨glyphs, text, offsets, Glyph.isChain_neighbours_mono chain ?_⟩
  obtain ⟨before, after, items, -⟩ := ProseItem.exists_append_of_mem_stretches among
  obtain ⟨front, back, lines⟩ := exists_append_of_mem_sectionsOf present
  rw [streamOf, lines, itemsOf_append, itemsOf_append, items]
  refine ⟨(itemsOf settings analysis.offset front ++ before).flatMap ProseItem.stream,
    (after ++ itemsOf settings analysis.offset back).flatMap ProseItem.stream, ?_⟩
  simp only [List.flatMap_append, List.append_assoc]

/-- The bytes of the stream increase. -/
theorem IsReadingOf.pairwise_streamOf (reading : analysis.IsReadingOf settings block) :
    ((analysis.streamOf settings).flatMap Glyph.bytes).Pairwise (· < ·) := by
  rw [streamOf, ProseItem.flatMap_bytes_stream]
  exact reading.pairwise_bytes analysis.offset

/-- The character is prose of the line. -/
def IsProseOf (analysis : Analysis) (line : SpannedLine) (glyph : Glyph) : Prop :=
  ∃ span ∈ line.spans, span.role = .prose ∧
    glyph ∈ ((line.textOf span).shift analysis.offset).glyphs

/-- A visible character of the stream is prose of a line that is not blank. -/
theorem exists_line_of_mem_streamOf {glyph : Glyph} (member : glyph ∈ analysis.streamOf settings)
    (visible : glyph.isVisible = true) :
    ∃ line ∈ analysis.lines, analysis.IsProseOf line glyph := by
  obtain ⟨item, among, here⟩ := List.mem_flatMap.mp member
  cases item with
  | text fragment =>
    obtain ⟨line, present, span, inside, prose, rfl⟩ := exists_span_of_text_mem among
    exact ⟨line, present, span, inside, prose, here⟩
  | lineEnd stop =>
    obtain rfl := List.mem_singleton.mp here
    cases visible
  | division => cases here

/-- Where a character of the prose stands in its line. -/
theorem IsProseOf.exists_append {glyph : Glyph} (spanned : line.line.content.IsSpannedBy line.spans)
    (isProse : analysis.IsProseOf line glyph) :
    ∃ left right, line.line.text = left ++ glyph.char :: right ∧
      analysis.offset + (line.line.content.start + width left) = glyph.offset ∧
      ∃ span ∈ line.spans, span.role = .prose ∧
        line.line.content.start + width left ∈ span.range := by
  obtain ⟨span, among, prose, member⟩ := isProse
  obtain ⟨before, after, parts, start, range⟩ := spanned.slice_part among
  obtain ⟨left, right, inner, place⟩ := Fragment.exists_append_of_mem_glyphs member
  dsimp only [Fragment.shift, SpannedLine.textOf] at inner place
  rw [inner] at parts
  have first : (line.line.content.slice span.range).start = span.range.start := rfl
  have last : span.range.stop = span.range.start + width (left ++ glyph.char :: right) := by
    rw [← inner]
    exact (congrArg ByteRange.stop range).symm
  have size := glyph.char.utf8Size_pos
  rw [width_append, width_cons] at last
  refine ⟨before ++ left, right ++ after, ?_, ?_, span, among, prose, ?_⟩
  · rw [show line.line.text = _ from parts]
    simp
  · rw [width_append]
    omega
  · rw [width_append, ByteRange.mem_iff]
    omega

theorem IsProseOf.bounds {glyph : Glyph} (spanned : line.line.content.IsSpannedBy line.spans)
    (isProse : analysis.IsProseOf line glyph) :
    analysis.offset + line.line.content.start ≤ glyph.offset ∧
      glyph.offset + glyph.char.utf8Size ≤ analysis.offset + line.line.stop := by
  obtain ⟨left, right, parts, place, -⟩ := isProse.exists_append spanned
  rw [CommentLine.stop, Fragment.stop, show line.line.content.text = _ from parts]
  simp only [width_append, width_cons]
  omega

/-- A character is prose of one line only. -/
theorem IsReadingOf.eq_of_isProseOf (reading : analysis.IsReadingOf settings block)
    {other : SpannedLine} (member : line ∈ analysis.lines) (among : other ∈ analysis.lines)
    {glyph : Glyph} (here : analysis.IsProseOf line glyph)
    (there : analysis.IsProseOf other glyph) : line = other := by
  have bounds := here.bounds (reading.spanned line member)
  have also := there.bounds (reading.spanned other among)
  have margin (line : CommentLine) : line.start ≤ line.content.start := Nat.le_add_right _ _
  have := margin line.line
  have := margin other.line
  have := glyph.char.utf8Size_pos
  rcases eq_or_ordered reading.pairwise_lines member among with same | before | behind
  · exact same
  · omega
  · omega

/-- A line with a visible character of prose is not blank. -/
theorem IsProseOf.not_isBlank {glyph : Glyph} (spanned : line.line.content.IsSpannedBy line.spans)
    (isProse : analysis.IsProseOf line glyph) (visible : glyph.isVisible = true) :
    ¬line.line.isBlank = true := by
  obtain ⟨left, right, parts, -⟩ := isProse.exists_append spanned
  intro blank
  have hidden := List.all_eq_true.mp blank glyph.char (by simp [parts])
  simp [Glyph.isVisible, hidden] at visible

/-- The end of a line that is not blank is among the bytes of the comment. -/
theorem lineEnd_mem_bytes (member : line ∈ analysis.lines) (content : ¬line.line.isBlank = true) :
    analysis.offset + line.line.stop ∈
      (itemsOf settings analysis.offset analysis.lines).flatMap ProseItem.bytes := by
  refine List.mem_flatMap.mpr ⟨.lineEnd (analysis.offset + line.line.stop), ?_,
    List.mem_singleton_self _⟩
  refine List.mem_flatMap.mpr ⟨line, member, ?_⟩
  rw [SpannedLine.proseItems, if_neg content]
  exact List.mem_append_right _ (List.mem_singleton_self _)

/-- So is all of its prose. -/
theorem mem_bytes_of_mem_span (spanned : line.line.content.IsSpannedBy line.spans)
    (member : line ∈ analysis.lines) (content : ¬line.line.isBlank = true) {span : Span}
    (among : span ∈ line.spans) (prose : span.role = .prose) {origin : Nat}
    (inside : origin ∈ span.range.shift analysis.offset) :
    origin ∈ (itemsOf settings analysis.offset analysis.lines).flatMap ProseItem.bytes := by
  obtain ⟨-, -, -, -, range⟩ := spanned.slice_part among
  refine List.mem_flatMap.mpr ⟨.text ((line.textOf span).shift analysis.offset), ?_, ?_⟩
  · refine List.mem_flatMap.mpr ⟨line, member, ?_⟩
    rw [SpannedLine.proseItems, if_neg content]
    refine List.mem_append_left _ (List.mem_filterMap.mpr ⟨span, among, ?_⟩)
    have joins : ¬span.divides = true := by
      intro divides
      rw [spanned.role_of_divides among divides] at prose
      cases prose
    rw [SpannedLine.proseItem?, if_neg joins, if_pos prose]
  · refine Fragment.mem_bytes.mpr ?_
    rw [← range] at inside
    simpa [ByteRange.mem_iff, ByteRange.shift, Fragment.range, Fragment.shift, Fragment.stop,
      Nat.add_assoc, SpannedLine.textOf] using inside

/-- Nothing of the line between the two places is prose. -/
def LeavesOut (analysis : Analysis) (line : SpannedLine) (range : ByteRange) : Prop :=
  ∀ origin ∈ range, ∃ span ∈ line.spans, origin ∈ span.range.shift analysis.offset ∧
    span.role ≠ .prose

/-- Visible neighbours are prose of one line, and nothing between them is prose. -/
theorem IsReadingOf.exists_line_of_neighbours (reading : analysis.IsReadingOf settings block)
    {x y : Glyph} (next : [x, y] <:+: analysis.streamOf settings) (xVisible : x.isVisible = true)
    (yVisible : y.isVisible = true) :
    ∃ line ∈ analysis.lines, analysis.IsProseOf line x ∧ analysis.IsProseOf line y ∧
      x.offset + x.char.utf8Size ≤ y.offset ∧
      analysis.LeavesOut line ⟨x.offset + x.char.utf8Size, y.offset⟩ := by
  obtain ⟨order, between⟩ := Glyph.between_neighbours reading.pairwise_streamOf next
  rw [streamOf, ProseItem.flatMap_bytes_stream] at between
  have present {glyph : Glyph} (member : glyph ∈ [x, y]) := next.subset member
  obtain ⟨line, member, xProse⟩ := exists_line_of_mem_streamOf (present (by simp)) xVisible
  obtain ⟨other, among, yProse⟩ := exists_line_of_mem_streamOf (present (by simp)) yVisible
  have spanned := reading.spanned line member
  have content := xProse.not_isBlank spanned xVisible
  have xBounds := xProse.bounds spanned
  have yBounds := yProse.bounds (reading.spanned other among)
  have margin (line : CommentLine) : line.start ≤ line.content.start := Nat.le_add_right _ _
  have := y.char.utf8Size_pos
  -- Between different lines stands the end of the earlier one.
  obtain rfl : line = other := by
    rcases eq_or_ordered reading.pairwise_lines member among with same | before | behind
    · exact same
    · have := margin other.line
      have := between _ (lineEnd_mem_bytes member content)
      omega
    · have := margin line.line
      omega
  refine ⟨line, member, xProse, yProse, order, fun origin inside => ?_⟩
  rw [ByteRange.mem_iff] at inside
  dsimp only at inside
  obtain ⟨span, covers, here⟩ := spanned.tiles.exists_mem
    (show line.line.content.start ≤ origin - analysis.offset by omega)
    (show origin - analysis.offset < line.line.stop by omega)
  have origin_mem : origin ∈ span.range.shift analysis.offset := by
    rw [ByteRange.mem_iff] at here
    simp only [ByteRange.mem_iff, ByteRange.shift]
    omega
  refine ⟨span, covers, origin_mem, fun prose => ?_⟩
  have := between _ (mem_bytes_of_mem_span spanned member content covers prose origin_mem)
  omega

/-! ### Seams -/

/-- At the position, a passage goes on with text that does not stand right behind the text before
it: what stands between them in the line is no prose. -/
def IsSeam (analysis : Analysis) (line : SpannedLine) (passage : Passage) (position : Nat) : Prop :=
  ∃ last next, passage.provenance.origin? (position - 1) = some last ∧
    passage.provenance.origin? position = some next ∧ last + 1 < next ∧
    analysis.LeavesOut line ⟨last + 1, next⟩

/-- Visible neighbours go on as the line does, up to a first seam if there is one. -/
theorem IsReadingOf.goes_on_or_parts (reading : analysis.IsReadingOf settings block)
    (member : line ∈ analysis.lines) {x : Glyph} {rest : List Glyph}
    (chain : (x :: rest).IsChain (Glyph.Neighbours (analysis.streamOf settings)))
    (visible : ∀ glyph ∈ x :: rest, glyph.isVisible = true) (isProse : analysis.IsProseOf line x)
    {left right : List Char} (parts : line.line.text = left ++ x.char :: right)
    (place : analysis.offset + (line.line.content.start + width left) = x.offset) :
    (∃ other, right = rest.map Glyph.char ++ other) ∨
      ∃ front last next back other, x :: rest = front ++ last :: next :: back ∧
        x.char :: right = (front ++ [last]).map Glyph.char ++ other ∧
        last.offset + last.char.utf8Size < next.offset ∧
        analysis.LeavesOut line ⟨last.offset + last.char.utf8Size, next.offset⟩ := by
  induction rest generalizing x left right with
  | nil => exact .inl ⟨right, rfl⟩
  | cons y rest ih =>
    rw [List.isChain_cons_cons] at chain
    obtain ⟨xVisible, others⟩ := List.forall_mem_cons.mp visible
    obtain ⟨own, among, xHere, yHere, order, leavesOut⟩ :=
      reading.exists_line_of_neighbours (chain.1 xVisible (others y List.mem_cons_self)) xVisible
        (others y List.mem_cons_self)
    obtain rfl := reading.eq_of_isProseOf among member xHere isProse
    rcases Nat.lt_or_eq_of_le order with apart | meets
    · exact .inr ⟨[], x, y, rest, right, rfl, rfl, apart, leavesOut⟩
    · obtain ⟨front, back, pieces, spot, -⟩ := yHere.exists_append (reading.spanned own among)
      obtain ⟨rfl, rfl⟩ : left ++ [x.char] = front ∧ right = y.char :: back := by
        refine append_inj_of_width (by simpa [← parts] using pieces) ?_
        simp only [width_append, width_cons, width_nil]
        omega
      rcases ih chain.2 others yHere pieces spot with ⟨other, rfl⟩ |
        ⟨before, last, next, behind, other, shape, text, apart, leavesOut⟩
      · exact .inl ⟨other, rfl⟩
      · exact .inr ⟨x :: before, last, next, behind, other, by rw [shape]; rfl,
          by rw [text]; rfl, apart, leavesOut⟩

/-- For every comment that can be analysed: where the text of a passage opens a tag, an element or a
reference, there is a seam behind its first or second character. Up to the seam the text stands in a
line of the comment, and as the line goes on from there nothing opens. -/
theorem openings_run_across_seams (settings : Settings) (block : Fragment) {analysis : Analysis}
    (analysed : ofBlock settings block = .ok analysis) {passage : Passage}
    (member : passage ∈ analysis.passages) {before after : List Char}
    (parts : passage.text = before ++ after) {construct : Construct}
    (opens : construct.Opens after) :
    ∃ line ∈ analysis.lines, ∃ left front c back other, after = front ++ c :: back ∧ front ≠ [] ∧
      front.length ≤ 2 ∧ line.line.text = left ++ front ++ other ∧
      (∀ construct : Construct, ¬construct.Opens (front ++ other)) ∧
      analysis.IsSeam line passage (width (before ++ front)) := by
  have reading := isReadingOf_of_ofBlock analysed
  obtain ⟨glyphs, text, offsets, chain⟩ := reading.exists_neighbours_of_mem_passages member
  obtain ⟨sign, behind, rfl, atLeast, atMost, visible, told⟩ := opens.exists_sign
  rw [text, ← List.append_assoc] at parts
  obtain ⟨upTo, rest, rfl, spelled, rfl⟩ := List.map_eq_append_iff.mp parts
  obtain ⟨earlier, shown, rfl, rfl, rfl⟩ := List.map_eq_append_iff.mp spelled
  obtain ⟨x, y, shown, rfl⟩ : ∃ x y others, shown = x :: y :: others := by
    match shown, atLeast with
    | x :: y :: others, _ => exact ⟨x, y, others, rfl⟩
  have shownVisible : ∀ glyph ∈ x :: y :: shown, glyph.isVisible = true := by
    intro glyph among
    simp [Glyph.isVisible, visible glyph.char (List.mem_map_of_mem among)]
  have shownChain : (x :: y :: shown).IsChain (Glyph.Neighbours (analysis.streamOf settings)) :=
    chain.infix ⟨earlier, rest, by simp⟩
  obtain ⟨line, among, isProse, -⟩ := reading.exists_line_of_neighbours
    ((List.isChain_cons_cons.mp shownChain).1 (shownVisible x (by simp)) (shownVisible y (by simp)))
    (shownVisible x (by simp)) (shownVisible y (by simp))
  obtain ⟨left, right, written, place, span, covers, prose, inside⟩ :=
    isProse.exists_append (reading.spanned line among)
  have closed := not_opens_of_prose analysed among covers prose written inside
  refine ⟨line, among, left, ?_⟩
  rcases reading.goes_on_or_parts among shownChain shownVisible isProse written place with
    ⟨other, rfl⟩ | ⟨front, last, next, back, other, shape, goesOn, apart, leavesOut⟩
  · obtain ⟨opened, here⟩ := told other
    exact absurd here (closed opened)
  · have lengths := congrArg List.length shape
    simp only [List.length_map, List.length_cons, List.length_append] at atMost lengths
    refine ⟨(front ++ [last]).map Glyph.char, next.char, (back ++ rest).map Glyph.char, other,
      by rw [shape]; simp, by simp, by simp; omega, by rw [written, goesOn, List.append_assoc],
      goesOn ▸ closed, ?_⟩
    rw [shape] at offsets
    have size := last.char.utf8Size_pos
    refine ⟨last.offset + (last.char.utf8Size - 1), next.offset, ?_, ?_, by omega, ?_⟩
    · have found := @Provenance.origin?_width_add passage.provenance (earlier ++ front)
        (next :: back ++ rest) last (by simpa using offsets) (last.char.utf8Size - 1) (by omega)
      rw [← found]
      congr 1
      simp
      omega
    · have found := @Provenance.origin?_width passage.provenance (earlier ++ front ++ [last])
        (back ++ rest) next (by simpa using offsets)
      simpa using found
    · have meets : last.offset + (last.char.utf8Size - 1) + 1 =
          last.offset + last.char.utf8Size := by omega
      rwa [meets]

/-- The tag behind the brace is taken out, and a reference begins in the passage. -/
theorem openings_run_across_seams_reference :
    ∃ analysis, ofBlock .standard ⟨0, "/** \x7b<b>@code x */".toList⟩ = .ok analysis ∧
      ∃ passage ∈ analysis.passages, passage.text = "\x7b@code x".toList ∧
        (Construct.reference "code").Opens passage.text ∧
        ∃ line ∈ analysis.lines, ∃ position, analysis.IsSeam line passage position := by
  have analysed : ofBlock .standard ⟨0, "/** \x7b<b>@code x */".toList⟩ = .ok
      { offset := 0
        comment := ⟨" \x7b<b>@code x ".toList, []⟩
        lines :=
          [⟨⟨3, [' '], "\x7b<b>@code x ".toList, []⟩,
            [⟨.prose, ⟨4, 5⟩, false⟩, ⟨.markup, ⟨5, 8⟩, false⟩, ⟨.prose, ⟨8, 16⟩, false⟩]⟩]
        unfinished := []
        passages := [⟨0, 0, .description, "\x7b@code x".toList, ⟨[⟨4, 1⟩, ⟨8, 7⟩]⟩⟩] } := by
    decide +kernel
  have opens : (Construct.reference "code").Opens "\x7b@code x".toList :=
    ⟨"code x".toList, "code".toList, " x".toList, rfl, by decide +kernel, rfl⟩
  obtain ⟨line, among, _, front, _, _, _, -, -, -, -, -, seam⟩ :=
    @openings_run_across_seams .standard _ _ analysed _ (List.mem_singleton_self _) [] _ rfl _ opens
  exact ⟨_, analysed, _, List.mem_singleton_self _, rfl, opens, line, among, _, seam⟩

end Analysis

end CommentProse
