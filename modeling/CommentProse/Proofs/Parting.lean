import CommentProse.Proofs.Placement

/-! # Which prose ends up in which passage

The passages of a comment have the visible characters of its prose, all of them and in order, and
nothing of what is not prose. Two such characters share a passage exactly if they belong to the same
section and nothing that divides prose stands between them. The argument is one about items in
place (`PlacedItem.same_stretch_iff`): what stands between two items in the list of items is what
stands between them in the comment.
-/

namespace CommentProse

namespace PlacedItem

variable {offset : Nat} {items : List PlacedItem} {x y : Glyph}

/-- The item is a division between the places of two characters. -/
def Parts (offset : Nat) (x y : Glyph) (placed : PlacedItem) : Prop :=
  placed.item = .division ∧ x.offset < offset + placed.range.start ∧
    offset + placed.range.stop ≤ y.offset

theorem InOrder.bounds (order : InOrder offset items) {placed : PlacedItem}
    (member : placed ∈ items) (inside : x ∈ placed.item.glyphs) :
    offset + placed.range.start ≤ x.offset ∧ x.offset < offset + placed.range.stop :=
  order.inside placed member x.offset (ProseItem.offset_mem_bytes inside)

/-- What parts two characters of some items is one of these items. -/
theorem InOrder.mem_of_parts {before middle after : List PlacedItem}
    (order : InOrder offset (before ++ middle ++ after))
    (xIn : x ∈ ProseItem.visibleGlyphs (middle.map item))
    (yIn : y ∈ ProseItem.visibleGlyphs (middle.map item)) {placed : PlacedItem}
    (member : placed ∈ before ++ middle ++ after) (parts : placed.Parts offset x y) :
    placed ∈ middle := by
  obtain ⟨-, behind, ahead⟩ := parts
  obtain ⟨xItem, xPresent, xInside, -⟩ := ProseItem.mem_visibleGlyphs.mp xIn
  obtain ⟨yItem, yPresent, yInside, -⟩ := ProseItem.mem_visibleGlyphs.mp yIn
  obtain ⟨xPlaced, xMember, rfl⟩ := List.mem_map.mp xPresent
  obtain ⟨yPlaced, yMember, rfl⟩ := List.mem_map.mp yPresent
  have xBounds := order.part.bounds xMember xInside
  have yBounds := order.part.bounds yMember yInside
  have forward := order.forward placed member
  have apart := order.apart
  rw [List.pairwise_append, List.pairwise_append] at apart
  obtain ⟨⟨-, -, early⟩, -, late⟩ := apart
  rw [List.mem_append, List.mem_append] at member
  rcases member with (earlier | here) | later
  · have := early placed earlier xPlaced xMember
    omega
  · exact here
  · have := late yPlaced (List.mem_append_right _ yMember) placed later
    omega

/-- The items from one through a later one stand, apart from these two, between them. -/
theorem exists_between {first last : PlacedItem}
    (apart : items.Pairwise fun placed later => placed.range.stop ≤ later.range.start)
    (firstMember : first ∈ items) (lastMember : last ∈ items)
    (ahead : first.range.start < last.range.stop) :
    ∃ before middle after, items = before ++ middle ++ after ∧ first ∈ middle ∧ last ∈ middle ∧
      ∀ placed ∈ middle, placed = first ∨ placed = last ∨
        first.range.stop ≤ placed.range.start ∧ placed.range.stop ≤ last.range.start := by
  obtain ⟨before, rest, rfl⟩ := List.append_of_mem firstMember
  rw [List.pairwise_append, List.pairwise_cons] at apart
  rcases List.mem_append.mp lastMember with earlier | later
  · have := apart.2.2 last earlier first List.mem_cons_self
    omega
  · rcases List.mem_cons.mp later with same | behind
    · refine ⟨before, [first], rest, by simp, List.mem_singleton_self _, ?_, ?_⟩
      · exact List.mem_singleton.mpr same
      · intro placed member
        exact .inl (List.mem_singleton.mp member)
    · obtain ⟨between, after, rfl⟩ := List.append_of_mem behind
      refine ⟨before, first :: (between ++ [last]), after, by simp, List.mem_cons_self,
        by simp, ?_⟩
      intro placed member
      rcases List.mem_cons.mp member with same | member
      · exact .inl same
      · rcases List.mem_append.mp member with inner | final
        · right
          right
          constructor
          · exact apart.2.1.1 placed (List.mem_append_left _ inner)
          · exact (List.pairwise_append.mp apart.2.1.2).2.2 placed inner last List.mem_cons_self
        · exact .inr (.inl (List.mem_singleton.mp final))

/-- The items from that of a character through that of a later one are undivided if nothing parts
the two. -/
theorem InOrder.exists_undivided (order : InOrder offset items) {xPlaced yPlaced : PlacedItem}
    (xMember : xPlaced ∈ items) (yMember : yPlaced ∈ items) (xInside : x ∈ xPlaced.item.glyphs)
    (yInside : y ∈ yPlaced.item.glyphs) (first : x.offset ≤ y.offset)
    (together : ¬∃ placed ∈ items, placed.Parts offset x y) :
    ∃ before middle after, items = before ++ middle ++ after ∧ xPlaced ∈ middle ∧
      yPlaced ∈ middle ∧ ∀ placed ∈ middle, placed.item ≠ .division := by
  have xBounds := order.bounds xMember xInside
  have yBounds := order.bounds yMember yInside
  obtain ⟨before, middle, after, rfl, xMiddle, yMiddle, between⟩ :=
    exists_between order.apart xMember yMember (by omega)
  refine ⟨before, middle, after, rfl, xMiddle, yMiddle, ?_⟩
  intro placed member division
  rcases between placed member with rfl | rfl | ⟨lower, upper⟩
  · rw [division] at xInside
    cases xInside
  · rw [division] at yInside
    cases yInside
  · apply together
    refine ⟨placed, ?_, division, ?_, ?_⟩
    · exact List.mem_append_left _ (List.mem_append_right _ member)
    · omega
    · omega

/-- Two characters of items in order are in one stretch exactly if no division parts them. -/
theorem same_stretch_iff (order : InOrder offset items)
    (xIn : x ∈ ProseItem.visibleGlyphs (items.map item))
    (yIn : y ∈ ProseItem.visibleGlyphs (items.map item)) (first : x.offset ≤ y.offset) :
    (∃ stretch ∈ ProseItem.stretches (items.map item),
      x ∈ ProseItem.visibleGlyphs stretch ∧ y ∈ ProseItem.visibleGlyphs stretch) ↔
      ¬∃ placed ∈ items, placed.Parts offset x y := by
  constructor
  · rintro ⟨stretch, among, xHere, yHere⟩ ⟨placed, member, parts⟩
    obtain ⟨before, after, whole, undivided⟩ := ProseItem.exists_append_of_mem_stretches among
    obtain ⟨front, back, rfl, frontItems, rfl⟩ := List.map_eq_append_iff.mp whole
    obtain ⟨early, middle, rfl, rfl, rfl⟩ := List.map_eq_append_iff.mp frontItems
    have here := order.mem_of_parts xHere yHere member parts
    have division := List.mem_map_of_mem (f := item) here
    rw [parts.1] at division
    exact undivided division
  · intro together
    obtain ⟨xItem, xPresent, xInside, xVisible⟩ := ProseItem.mem_visibleGlyphs.mp xIn
    obtain ⟨yItem, yPresent, yInside, yVisible⟩ := ProseItem.mem_visibleGlyphs.mp yIn
    obtain ⟨xPlaced, xMember, rfl⟩ := List.mem_map.mp xPresent
    obtain ⟨yPlaced, yMember, rfl⟩ := List.mem_map.mp yPresent
    obtain ⟨before, middle, after, rfl, xMiddle, yMiddle, undivided⟩ :=
      order.exists_undivided xMember yMember xInside yInside first together
    have noDivision : .division ∉ middle.map item := by
      intro member
      obtain ⟨placed, here, division⟩ := List.mem_map.mp member
      exact undivided placed here division
    obtain ⟨stretch, among, inside⟩ := ProseItem.exists_stretch_of_append (before.map item)
      (after.map item) noDivision
    rw [← List.map_append, ← List.map_append] at among
    refine ⟨stretch, among, ?_, ?_⟩
    · exact ProseItem.mem_visibleGlyphs.mpr
        ⟨_, inside (List.mem_map_of_mem xMiddle), xInside, xVisible⟩
    · exact ProseItem.mem_visibleGlyphs.mpr
        ⟨_, inside (List.mem_map_of_mem yMiddle), yInside, yVisible⟩

end PlacedItem

namespace SpannedLine

variable {settings : Settings} {offset : Nat} {line : SpannedLine}

/-- The visible characters of the prose of a line, in a source in which the comment begins at
`offset`. -/
def visibleProse (offset : Nat) (line : SpannedLine) : List Glyph :=
  (line.spans.filter (·.role = .prose)).flatMap fun span =>
    ((line.textOf span).shift offset).glyphs.filter Glyph.isVisible

/-- A blank line has no visible prose. -/
theorem visibleProse_of_isBlank (spanned : line.line.content.IsSpannedBy line.spans)
    (blank : line.line.isBlank = true) : line.visibleProse offset = [] := by
  apply List.flatMap_eq_nil_iff.mpr
  intro span member
  apply filter_isVisible_glyphsOf
  intro c among
  obtain ⟨left, right, parts, -, -⟩ := spanned.slice_part (List.mem_filter.mp member).1
  apply List.all_eq_true.mp blank c
  change c ∈ line.line.content.text
  rw [parts]
  exact List.mem_append_left _ (List.mem_append_right _ among)

theorem visibleGlyphs_filterMap (offset : Nat) (line : SpannedLine) {spans : List Span}
    (markup : ∀ span ∈ spans, span.divides = true → span.role = .markup) :
    ProseItem.visibleGlyphs (spans.filterMap (line.proseItem? offset)) =
      (spans.filter (·.role = .prose)).flatMap fun span =>
        ((line.textOf span).shift offset).glyphs.filter Glyph.isVisible := by
  induction spans with
  | nil => rfl
  | cons span spans ih =>
    have rest := ih fun other member => markup other (List.mem_cons_of_mem _ member)
    rw [ProseItem.visibleGlyphs] at rest ⊢
    rw [List.filterMap_cons, List.filter_cons, proseItem?]
    by_cases divides : span.divides = true
    · have role := markup span List.mem_cons_self divides
      rw [if_pos divides, if_neg (by simp [role]), ← rest]
      rfl
    · by_cases prose : span.role = .prose
      · rw [if_neg divides, if_pos prose, if_pos (by simpa using prose), List.flatMap_cons,
          List.filter_append, rest, List.flatMap_cons]
        rfl
      · rw [if_neg divides, if_neg prose, if_neg (by simpa using prose), ← rest]

/-- The items of a line bring the visible characters of its prose. -/
theorem visibleGlyphs_proseItems (spanned : line.line.content.IsSpannedBy line.spans) :
    ProseItem.visibleGlyphs (line.proseItems settings offset) = line.visibleProse offset := by
  rw [proseItems]
  split
  · next blank =>
    rw [visibleProse_of_isBlank spanned blank]
    split <;> rfl
  · rw [ProseItem.visibleGlyphs_concat, ProseItem.glyphs, List.filter_nil, List.append_nil]
    exact visibleGlyphs_filterMap offset line fun span => spanned.role_of_divides

end SpannedLine

namespace Analysis

variable {settings : Settings} {block : Fragment} {analysis : Analysis} {x y : Glyph}

theorem visibleGlyphs_itemsOf (settings : Settings) (offset : Nat) {lines : List SpannedLine}
    (spanned : ∀ line ∈ lines, line.line.content.IsSpannedBy line.spans) :
    ProseItem.visibleGlyphs (itemsOf settings offset lines) =
      lines.flatMap (·.visibleProse offset) := by
  rw [ProseItem.visibleGlyphs, itemsOf, List.flatMap_assoc, List.filter_flatMap]
  apply List.flatMap_congr
  intro line member
  exact SpannedLine.visibleGlyphs_proseItems (spanned line member)

/-- The characters belong to one section: the description, or the same tag. -/
def SameSection (analysis : Analysis) (x y : Glyph) : Prop :=
  ∃ part ∈ analysis.outline.sections,
    x ∈ part.2.flatMap (·.visibleProse analysis.offset) ∧
      y ∈ part.2.flatMap (·.visibleProse analysis.offset)

/-- Between the characters stands a span that divides, or a blank line where these divide. -/
def Parted (settings : Settings) (analysis : Analysis) (x y : Glyph) : Prop :=
  ∃ line ∈ analysis.lines,
    (∃ span ∈ line.spans, span.divides = true ∧ x.offset < analysis.offset + span.range.start ∧
      analysis.offset + span.range.stop ≤ y.offset) ∨
    (settings.blankLinesDivide = true ∧ line.line.isBlank = true ∧
      x.offset < analysis.offset + line.line.start ∧ analysis.offset + line.line.stop ≤ y.offset)

/-- What parts two characters is a division among the items. -/
theorem parted_iff (reading : analysis.IsReadingOf settings block) :
    analysis.Parted settings x y ↔
      ∃ placed ∈ analysis.lines.flatMap (·.placedItems settings analysis.offset),
        placed.Parts analysis.offset x y := by
  constructor
  · rintro ⟨line, member, ⟨span, among, divides, between⟩ | ⟨divide, blank, between⟩⟩
    · refine ⟨⟨span.range, .division⟩, List.mem_flatMap.mpr ⟨line, member, ?_⟩, rfl, between⟩
      have visible : line.line.isBlank ≠ true := by
        intro blank
        rw [reading.blank line member blank span among] at divides
        cases divides
      rw [SpannedLine.placedItems, if_neg visible]
      apply List.mem_append_left
      apply List.mem_filterMap.mpr
      exact ⟨span, among, by rw [SpannedLine.proseItem?, if_pos divides]; rfl⟩
    · refine ⟨⟨line.line.range, .division⟩, List.mem_flatMap.mpr ⟨line, member, ?_⟩, rfl, between⟩
      rw [SpannedLine.placedItems, if_pos blank, if_pos divide]
      exact List.mem_singleton_self _
  · rintro ⟨placed, member, division, between⟩
    obtain ⟨line, among, here⟩ := List.mem_flatMap.mp member
    rcases SpannedLine.mem_placedItems here with
      ⟨blank, divide, rfl⟩ | ⟨span, inside, divides, rfl⟩ | ⟨span, -, -, rfl⟩ | rfl
    · exact ⟨line, among, .inr ⟨divide, blank, between⟩⟩
    · exact ⟨line, among, .inl ⟨span, inside, divides, between⟩⟩
    · cases division
    · cases division

variable {part : Origin × List SpannedLine}

/-- The items of a section bring the visible characters of its prose. -/
theorem visibleGlyphs_section (reading : analysis.IsReadingOf settings block)
    (present : part ∈ sectionsOf analysis.lines) (offset : Nat) :
    ProseItem.visibleGlyphs (itemsOf settings offset part.2) =
      part.2.flatMap (·.visibleProse offset) := by
  apply visibleGlyphs_itemsOf
  intro line member
  exact reading.spanned line (subset_of_mem_sectionsOf present member)

/-- Two characters of a section are in one stretch exactly if nothing parts them. What parts them
is among the items of the section, for those of other sections stand before or behind both. -/
theorem exists_stretch_of_section_iff (reading : analysis.IsReadingOf settings block)
    (present : part ∈ sectionsOf analysis.lines)
    (xIn : x ∈ part.2.flatMap (·.visibleProse analysis.offset))
    (yIn : y ∈ part.2.flatMap (·.visibleProse analysis.offset)) (first : x.offset ≤ y.offset) :
    (∃ stretch ∈ ProseItem.stretches (itemsOf settings analysis.offset part.2),
      x ∈ ProseItem.visibleGlyphs stretch ∧ y ∈ ProseItem.visibleGlyphs stretch) ↔
      ¬analysis.Parted settings x y := by
  have order := reading.inOrder_placedItems analysis.offset
  obtain ⟨front, back, lines⟩ := exists_append_of_mem_sectionsOf present
  rw [← visibleGlyphs_section reading present, ← map_item_flatMap_placedItems] at xIn yIn
  rw [parted_iff reading, ← map_item_flatMap_placedItems]
  rw [lines, List.flatMap_append, List.flatMap_append] at order ⊢
  rw [PlacedItem.same_stretch_iff order.part xIn yIn first, not_iff_not]
  constructor
  · rintro ⟨placed, member, parts⟩
    exact ⟨placed, List.mem_append_left _ (List.mem_append_right _ member), parts⟩
  · rintro ⟨placed, member, parts⟩
    exact ⟨placed, order.mem_of_parts xIn yIn member parts, parts⟩

theorem exists_stretch_iff (reading : analysis.IsReadingOf settings block)
    (first : x.offset ≤ y.offset) :
    (∃ part ∈ sectionsOf analysis.lines,
      ∃ stretch ∈ ProseItem.stretches (itemsOf settings analysis.offset part.2),
        x ∈ ProseItem.visibleGlyphs stretch ∧ y ∈ ProseItem.visibleGlyphs stretch) ↔
      analysis.SameSection x y ∧ ¬analysis.Parted settings x y := by
  constructor
  · rintro ⟨part, present, stretch, among, xHere, yHere⟩
    have inSection {glyph : Glyph} (here : glyph ∈ ProseItem.visibleGlyphs stretch) :
        glyph ∈ part.2.flatMap (·.visibleProse analysis.offset) := by
      rw [← visibleGlyphs_section reading present]
      exact ProseItem.visibleGlyphs_subset_of_mem_stretches among here
    have together := exists_stretch_of_section_iff reading present (inSection xHere)
      (inSection yHere) first
    exact ⟨⟨part, present, inSection xHere, inSection yHere⟩,
      together.mp ⟨stretch, among, xHere, yHere⟩⟩
  · rintro ⟨⟨part, present, xIn, yIn⟩, together⟩
    exact ⟨part, present,
      (exists_stretch_of_section_iff reading present xIn yIn first).mpr together⟩

/-! ### Passages -/

end Analysis

/-- The visible characters of a passage, each with its origin. -/
def Passage.visibleOrigins (passage : Passage) : List (Option Nat × Char) :=
  passage.provenance.visibleOrigins passage.text

namespace Analysis

variable {settings : Settings} {block : Fragment} {analysis : Analysis} {x y : Glyph}

private theorem mem_map_origin {glyphs : List Glyph} :
    (some x.offset, x.char) ∈ glyphs.map (fun glyph => (some glyph.offset, glyph.char)) ↔
      x ∈ glyphs := by
  constructor
  · intro member
    obtain ⟨glyph, among, same⟩ := List.mem_map.mp member
    simp only [Prod.mk.injEq, Option.some.injEq] at same
    obtain ⟨offset, char⟩ := same
    rwa [← show glyph = x from Glyph.ext offset char]
  · intro member
    exact List.mem_map.mpr ⟨x, member, rfl⟩

/-- Two characters share a passage exactly if they share a stretch of a section. -/
theorem exists_passage_iff (reading : analysis.IsReadingOf settings block) :
    (∃ passage ∈ analysis.passages, (some x.offset, x.char) ∈ passage.visibleOrigins ∧
      (some y.offset, y.char) ∈ passage.visibleOrigins) ↔
      ∃ part ∈ sectionsOf analysis.lines,
        ∃ stretch ∈ ProseItem.stretches (itemsOf settings analysis.offset part.2),
          x ∈ ProseItem.visibleGlyphs stretch ∧ y ∈ ProseItem.visibleGlyphs stretch := by
  rw [reading.passages, ← reading.offset]
  constructor
  · rintro ⟨passage, member, xHere, yHere⟩
    obtain ⟨part, present, -, -, made⟩ := exists_section_of_mem_passagesOf member
    obtain ⟨stretch, among, isPassage⟩ := ProseItem.exists_stretch_of_mem_passages made
    rw [Passage.visibleOrigins, isPassage.visibleOrigins_eq, mem_map_origin] at xHere yHere
    exact ⟨part, present, stretch, among, xHere, yHere⟩
  · rintro ⟨part, present, stretch, among, xHere, yHere⟩
    obtain ⟨⟨text, provenance⟩, made, isPassage⟩ :=
      ProseItem.exists_passage_of_mem_visibleGlyphs among xHere
    obtain ⟨passage, member, -, rfl, rfl⟩ := exists_passage_of_mem_sectionsOf present made
    refine ⟨passage, member, ?_⟩
    rw [Passage.visibleOrigins, isPassage.visibleOrigins_eq, mem_map_origin, mem_map_origin]
    exact ⟨xHere, yHere⟩

/-- The passages have the visible characters of all prose, in order. -/
theorem flatMap_visibleOrigins (reading : analysis.IsReadingOf settings block) :
    analysis.passages.flatMap Passage.visibleOrigins =
      (analysis.lines.flatMap (·.visibleProse analysis.offset)).map
        fun glyph => (some glyph.offset, glyph.char) := by
  have sections := flatMap_passagesOf (fun draft => draft.2.visibleOrigins draft.1) settings
    analysis.offset analysis.lines
  simp only [ProseItem.visibleOrigins_passages] at sections
  rw [reading.passages, ← reading.offset]
  refine sections.trans ?_
  rw [← List.map_flatMap]
  congr 1
  calc
    _ = (sectionsOf analysis.lines).flatMap fun part =>
          part.2.flatMap (·.visibleProse analysis.offset) :=
      List.flatMap_congr fun part present => visibleGlyphs_section reading present _
    _ = _ := by rw [← List.flatMap_assoc, flatMap_sectionsOf]

/-- The visible characters of a passage belong to the section that its origin names. -/
theorem exists_section_of_mem_passages (reading : analysis.IsReadingOf settings block)
    {passage : Passage} (member : passage ∈ analysis.passages) :
    ∃ part ∈ analysis.outline.sections, passage.origin = part.1 ∧
      ∀ origin ∈ passage.visibleOrigins, ∃ glyph ∈ part.2.flatMap (·.visibleProse analysis.offset),
        origin = (some glyph.offset, glyph.char) := by
  rw [reading.passages, ← reading.offset] at member
  obtain ⟨part, present, -, named, made⟩ := exists_section_of_mem_passagesOf member
  obtain ⟨stretch, among, isPassage⟩ := ProseItem.exists_stretch_of_mem_passages made
  refine ⟨part, present, named, ?_⟩
  intro origin here
  rw [Passage.visibleOrigins, isPassage.visibleOrigins_eq] at here
  obtain ⟨glyph, shown, rfl⟩ := List.mem_map.mp here
  refine ⟨glyph, ?_, rfl⟩
  rw [← visibleGlyphs_section reading present]
  exact ProseItem.visibleGlyphs_subset_of_mem_stretches among shown

/-- An item of the prose brings no byte of a span that is not prose. -/
theorem not_mem_span_of_mem_bytes (reading : analysis.IsReadingOf settings block) {offset origin : Nat}
    (member : origin ∈ (itemsOf settings offset analysis.lines).flatMap ProseItem.bytes)
    {line : SpannedLine} (present : line ∈ analysis.lines) {span : Span} (among : span ∈ line.spans)
    (other : span.role ≠ .prose) : origin ∉ span.range.shift offset := by
  intro inside
  rw [← map_item_flatMap_placedItems, List.flatMap_map] at member
  obtain ⟨placed, within, byte⟩ := List.mem_flatMap.mp member
  obtain ⟨own, ownPresent, here⟩ := List.mem_flatMap.mp within
  have spanned := reading.spanned line present
  obtain ⟨ordered, bounds⟩ := spanned.tiles.pairwise
  have stop : line.line.content.stop = line.line.stop := rfl
  have start : line.line.start ≤ line.line.content.start := Nat.le_add_right _ _
  have spanBounds := bounds span among
  have placedBounds := SpannedLine.bounds_of_mem_placedItems (reading.spanned own ownPresent) here
  have range := placedBounds.2.2.2 origin byte
  simp only [ByteRange.mem_iff, ByteRange.shift] at inside range
  rcases eq_or_ordered reading.pairwise_lines present ownPresent with rfl | before | behind
  · rcases SpannedLine.mem_placedItems here with
      ⟨-, -, rfl⟩ | ⟨source, -, -, rfl⟩ | ⟨source, sourceMember, prose, rfl⟩ | rfl
    · cases byte
    · cases byte
    · rcases eq_or_ordered ordered among sourceMember with rfl | early | late
      · exact other prose
      · dsimp only at range
        omega
      · dsimp only at range
        omega
    · dsimp only at range
      omega
  · omega
  · omega

/-- What a passage consists of, and which prose is in which passage, for every comment that can be
analysed.

Nothing is lost, duplicated or invented: the visible characters of the passages are, with their
origins, those of all spans of prose in the order of lines and spans. No byte of a passage is taken
from a span that is not prose. Two visible characters share a passage exactly if they belong to the
same section and nothing that divides stands between them. The origin of a passage is the section
of its characters, and its ordinal is its index. -/
theorem passages_part_prose (settings : Settings) (block : Fragment) {analysis : Analysis}
    (analysed : ofBlock settings block = .ok analysis) :
    analysis.passages.flatMap Passage.visibleOrigins =
      (analysis.lines.flatMap (·.visibleProse analysis.offset)).map
        (fun glyph => (some glyph.offset, glyph.char)) ∧
    (∀ passage ∈ analysis.passages, ∀ position < width passage.text,
      ∃ origin, passage.provenance.origin? position = some origin ∧
        ∀ line ∈ analysis.lines, ∀ span ∈ line.spans, span.role ≠ .prose →
          origin ∉ span.range.shift analysis.offset) ∧
    (∀ x y : Glyph, x.offset ≤ y.offset →
      ((∃ passage ∈ analysis.passages, (some x.offset, x.char) ∈ passage.visibleOrigins ∧
        (some y.offset, y.char) ∈ passage.visibleOrigins) ↔
        analysis.SameSection x y ∧ ¬analysis.Parted settings x y)) ∧
    (∀ passage ∈ analysis.passages, ∃ part ∈ analysis.outline.sections, passage.origin = part.1 ∧
      ∀ origin ∈ passage.visibleOrigins, ∃ glyph ∈ part.2.flatMap (·.visibleProse analysis.offset),
        origin = (some glyph.offset, glyph.char)) ∧
    analysis.passages.map Passage.ordinal = List.range analysis.passages.length := by
  have reading := isReadingOf_of_ofBlock analysed
  refine ⟨flatMap_visibleOrigins reading, ?_, ?_, ?_, ?_⟩
  · intro passage member position early
    obtain ⟨before, stretch, after, whole, isPassage⟩ :=
      reading.exists_stretch_of_mem_passages member
    have inside : position < passage.provenance.size := by rwa [isPassage.size_eq]
    have early : position < passage.provenance.offsets.length := by
      rwa [Provenance.length_offsets]
    have byte := reading.sublist_offsets.subset
      (List.mem_flatMap.mpr ⟨passage, member, List.getElem_mem early⟩)
    refine ⟨_, (Provenance.origin?_eq_getElem? inside).trans (List.getElem?_eq_getElem early), ?_⟩
    intro line present span among other
    rw [reading.offset]
    exact not_mem_span_of_mem_bytes reading byte present among other
  · intro x y first
    rw [exists_passage_iff reading]
    exact exists_stretch_iff reading first
  · intro passage member
    exact exists_section_of_mem_passages reading member
  · rw [reading.passages]
    exact map_ordinal_passagesOf settings block.start analysis.lines

/-- The element between `a` and `b` divides them, the line break between `b` and `c` does not. -/
theorem passages_part_prose_at_element :
    ∃ analysis, ofBlock .standard ⟨2, "/** a<p>b\n * c*/".toList⟩ = .ok analysis ∧
      analysis.passages.map Passage.text = ["a".toList, "b c".toList] ∧
      (¬∃ passage ∈ analysis.passages, (some 6, 'a') ∈ passage.visibleOrigins ∧
        (some 10, 'b') ∈ passage.visibleOrigins) ∧
      analysis.SameSection ⟨10, 'b'⟩ ⟨15, 'c'⟩ ∧ ¬analysis.Parted .standard ⟨10, 'b'⟩ ⟨15, 'c'⟩ := by
  have analysed : ofBlock .standard ⟨2, "/** a<p>b\n * c*/".toList⟩ = .ok
      { offset := 2
        comment := ⟨" a<p>b\n * c".toList, []⟩
        lines :=
          [⟨⟨3, [' '], "a<p>b".toList, ['\n']⟩,
            [⟨.prose, ⟨4, 5⟩, false⟩, ⟨.markup, ⟨5, 8⟩, true⟩, ⟨.prose, ⟨8, 9⟩, false⟩]⟩,
          ⟨⟨10, " * ".toList, ['c'], []⟩, [⟨.prose, ⟨13, 14⟩, false⟩]⟩]
        unfinished := []
        passages :=
          [⟨2, 0, .description, ['a'], ⟨[⟨6, 1⟩]⟩⟩,
          ⟨2, 1, .description, "b c".toList, ⟨[⟨10, 2⟩, ⟨15, 1⟩]⟩⟩] } := by decide +kernel
  obtain ⟨-, -, shared, -, -⟩ := passages_part_prose .standard _ analysed
  refine ⟨_, analysed, rfl, ?_, ?_⟩
  · intro together
    obtain ⟨-, apart⟩ := (shared ⟨6, 'a'⟩ ⟨10, 'b'⟩ (by decide)).mp together
    apply apart
    exact ⟨_, List.mem_cons_self, .inl ⟨⟨.markup, ⟨5, 8⟩, true⟩, by decide, rfl, by decide, by decide⟩⟩
  · apply (shared ⟨10, 'b'⟩ ⟨15, 'c'⟩ (by decide)).mp
    exact ⟨_, List.mem_cons_of_mem _ List.mem_cons_self, by decide +kernel, by decide +kernel⟩

end Analysis

end CommentProse
