import CommentProse.Proofs.Coverage
import CommentProse.Proofs.Prose.Passages
import Mathlib.Data.List.Flatten

/-! # Where the prose of a comment comes from

Passages are made of items, and items do not say where a division stands. `SpannedLine.placedItems`
gives each item of a line the range of the comment that it comes from. The ranges of all lines
follow each other without overlap (`Analysis.IsReadingOf.inOrder_placedItems`), which orders the
bytes of passages within sections and between them. The passages of a comment are those of its
sections, one section after the other.
-/

namespace CommentProse

/-- An item of the prose with the range of the comment that it comes from. -/
structure PlacedItem where
  range : ByteRange
  item : ProseItem

theorem ProseItem.pairwise_bytes (item : ProseItem) : item.bytes.Pairwise (· < ·) := by
  cases item with
  | text fragment => exact List.pairwise_lt_range'
  | lineEnd stop => exact List.pairwise_singleton _ _
  | division => exact List.Pairwise.nil

namespace PlacedItem

variable {offset : Nat} {items : List PlacedItem}

/-- Items follow each other, and the bytes of each lie in its range. -/
structure InOrder (offset : Nat) (items : List PlacedItem) : Prop where
  apart : items.Pairwise fun placed later => placed.range.stop ≤ later.range.start
  forward : ∀ placed ∈ items, placed.range.start ≤ placed.range.stop
  inside : ∀ placed ∈ items, ∀ source ∈ placed.item.bytes, source ∈ placed.range.shift offset

theorem InOrder.part {before middle after : List PlacedItem}
    (order : InOrder offset (before ++ middle ++ after)) : InOrder offset middle where
  apart := (List.pairwise_append.mp (List.pairwise_append.mp order.apart).1).2.1
  forward := by
    intro placed member
    exact order.forward placed (List.mem_append_left _ (List.mem_append_right _ member))
  inside := by
    intro placed member
    exact order.inside placed (List.mem_append_left _ (List.mem_append_right _ member))

/-- The bytes of items in order are in order. -/
theorem InOrder.pairwise_bytes (order : InOrder offset items) :
    ((items.map item).flatMap ProseItem.bytes).Pairwise (· < ·) := by
  rw [List.flatMap_map]
  refine List.pairwise_flatMap.mpr ⟨fun placed _ => placed.item.pairwise_bytes, ?_⟩
  apply order.apart.imp_of_mem
  intro placed later member among apart source here other there
  have upper := (order.inside placed member source here).2
  have lower := (order.inside later among other there).1
  simp only [ByteRange.shift] at upper lower
  omega

end PlacedItem

namespace SpannedLine

variable {settings : Settings} {offset : Nat} {line : SpannedLine}

/-- What a line contributes to the prose, in place. A blank line divides as a whole, and the end of
a line takes up one byte. -/
def placedItems (settings : Settings) (offset : Nat) (line : SpannedLine) : List PlacedItem :=
  if line.line.isBlank then
    if settings.blankLinesDivide then [⟨line.line.range, .division⟩] else []
  else
    line.spans.filterMap (fun span => (line.proseItem? offset span).map (PlacedItem.mk span.range)) ++
      [⟨⟨line.line.stop, line.line.stop + 1⟩, .lineEnd (offset + line.line.stop)⟩]

theorem map_item_placedItems (settings : Settings) (offset : Nat) (line : SpannedLine) :
    (line.placedItems settings offset).map PlacedItem.item = line.proseItems settings offset := by
  rw [placedItems, proseItems]
  split
  · split <;> rfl
  · rw [List.map_append, List.map_filterMap]
    simp only [Option.map_map]
    congr 2
    funext span
    exact congrFun Option.map_id _

/-- An item is the division that a blank line or a span makes, the text of a span of prose, or the
end of a line. -/
theorem mem_placedItems {placed : PlacedItem} (member : placed ∈ line.placedItems settings offset) :
    (line.line.isBlank = true ∧ settings.blankLinesDivide = true ∧
        placed = ⟨line.line.range, .division⟩) ∨
      (∃ span ∈ line.spans, span.divides = true ∧ placed = ⟨span.range, .division⟩) ∨
      (∃ span ∈ line.spans, span.role = .prose ∧
        placed = ⟨span.range, .text ((line.textOf span).shift offset)⟩) ∨
      placed = ⟨⟨line.line.stop, line.line.stop + 1⟩, .lineEnd (offset + line.line.stop)⟩ := by
  rw [placedItems] at member
  split at member
  · next blank =>
    split at member
    · next divides => exact .inl ⟨blank, divides, List.mem_singleton.mp member⟩
    · simp at member
  · rcases List.mem_append.mp member with inside | final
    · obtain ⟨span, among, made⟩ := List.mem_filterMap.mp inside
      rw [proseItem?] at made
      split at made
      · next divides => exact .inr (.inl ⟨span, among, divides, (Option.some.inj made).symm⟩)
      · split at made
        · next prose => exact .inr (.inr (.inl ⟨span, among, prose, (Option.some.inj made).symm⟩))
        · simp at made
    · exact .inr (.inr (.inr (List.mem_singleton.mp final)))

/-- The bytes of an item lie in its range, and this lies in the line. -/
theorem bounds_of_mem_placedItems (spanned : line.line.content.IsSpannedBy line.spans)
    {placed : PlacedItem} (member : placed ∈ line.placedItems settings offset) :
    line.line.start ≤ placed.range.start ∧ placed.range.start ≤ placed.range.stop ∧
      placed.range.stop ≤ line.line.stop + 1 ∧
      ∀ source ∈ placed.item.bytes, source ∈ placed.range.shift offset := by
  have start : line.line.start ≤ line.line.content.start := Nat.le_add_right _ _
  have stop : line.line.content.stop = line.line.stop := rfl
  obtain ⟨-, bounds⟩ := spanned.tiles.pairwise
  rcases mem_placedItems member with ⟨-, -, rfl⟩ | ⟨span, among, -, rfl⟩ | ⟨span, among, -, rfl⟩ | rfl
  · have := DocComment.start_le_stop line.line
    exact ⟨Nat.le_refl _, this, Nat.le_succ _, by simp [ProseItem.bytes]⟩
  · have := bounds span among
    dsimp only
    exact ⟨by omega, by omega, by omega, by simp [ProseItem.bytes]⟩
  · have := bounds span among
    obtain ⟨-, -, -, -, range⟩ := spanned.slice_part among
    refine ⟨?_, ?_, ?_, ?_⟩
    · dsimp only
      omega
    · dsimp only
      omega
    · dsimp only
      omega
    · intro source here
      have inside := Fragment.mem_bytes.mp here
      rw [← range]
      simpa [ByteRange.mem_iff, ByteRange.shift, Fragment.range, Fragment.shift, Fragment.stop,
        Nat.add_assoc, textOf] using inside
  · have := DocComment.start_le_stop line.line
    refine ⟨this, Nat.le_succ _, Nat.le_refl _, ?_⟩
    intro source here
    obtain rfl := List.mem_singleton.mp here
    exact ⟨Nat.le_refl _, Nat.lt_succ_self _⟩

/-- The items of a line follow each other. -/
theorem pairwise_placedItems (spanned : line.line.content.IsSpannedBy line.spans) :
    (line.placedItems settings offset).Pairwise fun placed later =>
      placed.range.stop ≤ later.range.start := by
  obtain ⟨ordered, bounds⟩ := spanned.tiles.pairwise
  rw [placedItems]
  split
  · split
    · exact List.pairwise_singleton _ _
    · exact List.Pairwise.nil
  · have rangeOf {span : Span} {placed : PlacedItem}
        (made : (line.proseItem? offset span).map (PlacedItem.mk span.range) = some placed) :
        placed.range = span.range := by
      obtain ⟨item, -, rfl⟩ := Option.map_eq_some_iff.mp made
      rfl
    refine List.pairwise_append.mpr ⟨?_, List.pairwise_singleton _ _, ?_⟩
    · refine List.pairwise_filterMap.mpr (ordered.imp ?_)
      intro span later order placed made other madeLater
      rwa [rangeOf made, rangeOf madeLater]
    · intro placed member final last
      obtain ⟨span, among, made⟩ := List.mem_filterMap.mp member
      obtain rfl := List.mem_singleton.mp last
      rw [rangeOf made]
      exact (bounds span among).2.2

end SpannedLine

namespace Analysis

variable {settings : Settings} {offset : Nat} {lines : List SpannedLine}

/-- What lines contribute to the prose. -/
def itemsOf (settings : Settings) (offset : Nat) (lines : List SpannedLine) : List ProseItem :=
  lines.flatMap (·.proseItems settings offset)

theorem itemsOf_append (settings : Settings) (offset : Nat) (front back : List SpannedLine) :
    itemsOf settings offset (front ++ back) =
      itemsOf settings offset front ++ itemsOf settings offset back := List.flatMap_append

theorem map_item_flatMap_placedItems (settings : Settings) (offset : Nat)
    (lines : List SpannedLine) :
    (lines.flatMap (·.placedItems settings offset)).map PlacedItem.item =
      itemsOf settings offset lines := by
  rw [List.map_flatMap, itemsOf]
  simp only [SpannedLine.map_item_placedItems]

theorem exists_placedItem_of_mem {item : ProseItem} (member : item ∈ itemsOf settings offset lines) :
    ∃ line ∈ lines, ∃ placed ∈ line.placedItems settings offset, placed.item = item := by
  obtain ⟨line, among, here⟩ := List.mem_flatMap.mp member
  rw [← SpannedLine.map_item_placedItems] at here
  exact ⟨line, among, List.mem_map.mp here⟩

/-- Text of the prose is that of a span of prose. -/
theorem exists_span_of_text_mem {fragment : Fragment}
    (member : .text fragment ∈ itemsOf settings offset lines) :
    ∃ line ∈ lines, ∃ span ∈ line.spans, span.role = .prose ∧
      fragment = (line.textOf span).shift offset := by
  obtain ⟨line, among, placed, present, item⟩ := exists_placedItem_of_mem member
  rcases SpannedLine.mem_placedItems present with
    ⟨-, -, rfl⟩ | ⟨span, -, -, rfl⟩ | ⟨span, inside, prose, rfl⟩ | rfl
  · cases item
  · cases item
  · exact ⟨line, among, span, inside, prose, (ProseItem.text.inj item).symm⟩
  · cases item

theorem exists_line_of_lineEnd_mem {stop : Nat}
    (member : .lineEnd stop ∈ itemsOf settings offset lines) :
    ∃ line ∈ lines, stop = offset + line.line.stop := by
  obtain ⟨line, among, placed, present, item⟩ := exists_placedItem_of_mem member
  rcases SpannedLine.mem_placedItems present with
    ⟨-, -, rfl⟩ | ⟨span, -, -, rfl⟩ | ⟨span, -, -, rfl⟩ | rfl
  · cases item
  · cases item
  · cases item
  · exact ⟨line, among, (ProseItem.lineEnd.inj item).symm⟩

end Analysis

namespace Analysis.IsReadingOf

variable {settings : Settings} {block : Fragment} {analysis : Analysis}

theorem pairwise_lines (reading : analysis.IsReadingOf settings block) :
    analysis.lines.Pairwise fun line later => line.line.stop < later.line.start := by
  have ordered := analysis.comment.pairwise_lines
  rw [← reading.lines] at ordered
  exact List.pairwise_map.mp ordered

/-- The items of all lines are in order. -/
theorem inOrder_placedItems (reading : analysis.IsReadingOf settings block) (offset : Nat) :
    PlacedItem.InOrder offset (analysis.lines.flatMap (·.placedItems settings offset)) where
  apart := by
    refine List.pairwise_flatMap.mpr ⟨?_, reading.pairwise_lines.imp_of_mem ?_⟩
    · intro line member
      exact SpannedLine.pairwise_placedItems (reading.spanned line member)
    · intro line later member among order placed here other there
      have := SpannedLine.bounds_of_mem_placedItems (reading.spanned line member) here
      have := SpannedLine.bounds_of_mem_placedItems (reading.spanned later among) there
      omega
  forward := by
    intro placed member
    obtain ⟨line, among, here⟩ := List.mem_flatMap.mp member
    exact (SpannedLine.bounds_of_mem_placedItems (reading.spanned line among) here).2.1
  inside := by
    intro placed member
    obtain ⟨line, among, here⟩ := List.mem_flatMap.mp member
    exact (SpannedLine.bounds_of_mem_placedItems (reading.spanned line among) here).2.2.2

/-- The bytes of the items of all lines are in order. -/
theorem pairwise_bytes (reading : analysis.IsReadingOf settings block) (offset : Nat) :
    ((itemsOf settings offset analysis.lines).flatMap ProseItem.bytes).Pairwise (· < ·) := by
  rw [← map_item_flatMap_placedItems]
  exact (reading.inOrder_placedItems offset).pairwise_bytes

end Analysis.IsReadingOf

/-! ### Sections -/

namespace Analysis

variable {settings : Settings} {offset : Nat} {lines : List SpannedLine} {passage : Passage}

/-- The sections of lines, each with where its prose comes from. -/
def sectionsOf (lines : List SpannedLine) : List (Origin × List SpannedLine) :=
  (Outline.ofLines SpannedLine.tagHead? lines).sections

theorem flatMap_sectionsOf (lines : List SpannedLine) :
    (sectionsOf lines).flatMap Prod.snd = lines := by
  rw [sectionsOf, Outline.flatMap_sections, Outline.lines_ofLines]

theorem exists_append_of_mem_sectionsOf {part : Origin × List SpannedLine}
    (present : part ∈ sectionsOf lines) : ∃ before after, lines = before ++ part.2 ++ after := by
  have parts := Outline.exists_append_of_mem_sections present
  rwa [Outline.lines_ofLines] at parts

theorem subset_of_mem_sectionsOf {part : Origin × List SpannedLine}
    (present : part ∈ sectionsOf lines) : part.2 ⊆ lines := by
  obtain ⟨before, after, whole⟩ := exists_append_of_mem_sectionsOf present
  intro line member
  rw [whole]
  exact List.mem_append_left _ (List.mem_append_right _ member)

/-- Drafts are numbered in order, whatever section they are from. -/
theorem passagesOf_eq (settings : Settings) (offset : Nat) (lines : List SpannedLine) :
    passagesOf settings offset lines =
      ((sectionsOf lines).flatMap fun part =>
        (ProseItem.passages (itemsOf settings offset part.2)).map (part.1, ·)).zipIdx.map
          fun draft => ⟨offset, draft.2, draft.1.1, draft.1.2.1, draft.1.2.2⟩ := rfl

theorem map_ordinal_passagesOf (settings : Settings) (offset : Nat) (lines : List SpannedLine) :
    (passagesOf settings offset lines).map Passage.ordinal =
      List.range (passagesOf settings offset lines).length := by
  rw [passagesOf_eq, List.map_map, List.length_map, List.length_zipIdx, List.range_eq_range']
  exact List.zipIdx_map_snd 0 _

/-- What the passages of a comment add up to is what those of its sections do. -/
theorem flatMap_passagesOf {α : Type} (given : List Char × Provenance → List α)
    (settings : Settings) (offset : Nat) (lines : List SpannedLine) :
    (passagesOf settings offset lines).flatMap
        (fun passage => given (passage.text, passage.provenance)) =
      (sectionsOf lines).flatMap fun part =>
        (ProseItem.passages (itemsOf settings offset part.2)).flatMap given := by
  rw [passagesOf_eq, List.flatMap_map]
  have unnumbered := congrArg (List.flatMap fun draft : Origin × List Char × Provenance =>
    given draft.2) (List.zipIdx_map_fst 0 ((sectionsOf lines).flatMap fun part =>
      (ProseItem.passages (itemsOf settings offset part.2)).map (part.1, ·)))
  rw [List.flatMap_map, List.flatMap_assoc] at unnumbered
  simp only [List.flatMap_map] at unnumbered
  exact unnumbered

theorem exists_section_of_mem_passagesOf (member : passage ∈ passagesOf settings offset lines) :
    ∃ part ∈ sectionsOf lines, passage.block = offset ∧ passage.origin = part.1 ∧
      (passage.text, passage.provenance) ∈ ProseItem.passages (itemsOf settings offset part.2) := by
  rw [passagesOf_eq] at member
  obtain ⟨⟨draft, ordinal⟩, numbered, rfl⟩ := List.mem_map.mp member
  have among := List.mem_map_of_mem (f := Prod.fst) numbered
  rw [List.zipIdx_map_fst] at among
  obtain ⟨part, present, made⟩ := List.mem_flatMap.mp among
  obtain ⟨source, here, rfl⟩ := List.mem_map.mp made
  exact ⟨part, present, rfl, rfl, here⟩

theorem exists_passage_of_mem_sectionsOf {part : Origin × List SpannedLine}
    (present : part ∈ sectionsOf lines) {text : List Char} {provenance : Provenance}
    (here : (text, provenance) ∈ ProseItem.passages (itemsOf settings offset part.2)) :
    ∃ passage ∈ passagesOf settings offset lines, passage.origin = part.1 ∧ passage.text = text ∧
      passage.provenance = provenance := by
  have among : (part.1, text, provenance) ∈ (sectionsOf lines).flatMap fun part =>
      (ProseItem.passages (itemsOf settings offset part.2)).map (part.1, ·) :=
    List.mem_flatMap.mpr ⟨part, present, List.mem_map_of_mem here⟩
  rw [← List.zipIdx_map_fst 0 (List.flatMap _ _)] at among
  obtain ⟨⟨draft, ordinal⟩, numbered, rfl⟩ := List.mem_map.mp among
  refine ⟨⟨offset, ordinal, part.1, text, provenance⟩, ?_, rfl, rfl, rfl⟩
  rw [passagesOf_eq]
  exact List.mem_map.mpr ⟨_, numbered, rfl⟩

namespace IsReadingOf

variable {block : Fragment} {analysis : Analysis}

/-- A passage is that of a stretch among the items of all lines. -/
theorem exists_stretch_of_mem_passages (reading : analysis.IsReadingOf settings block)
    {passage : Passage} (member : passage ∈ analysis.passages) :
    ∃ before stretch after,
      itemsOf settings block.start analysis.lines = before ++ stretch ++ after ∧
        ProseItem.IsPassageOf stretch passage.text passage.provenance := by
  rw [reading.passages] at member
  obtain ⟨part, present, -, -, made⟩ := exists_section_of_mem_passagesOf member
  obtain ⟨stretch, among, isPassage⟩ := ProseItem.exists_stretch_of_mem_passages made
  obtain ⟨front, back, lines⟩ := exists_append_of_mem_sectionsOf present
  obtain ⟨before, after, items, -⟩ := ProseItem.exists_append_of_mem_stretches among
  refine ⟨itemsOf settings block.start front ++ before, stretch,
    after ++ itemsOf settings block.start back, ?_, isPassage⟩
  rw [lines, itemsOf_append, itemsOf_append, items]
  simp only [List.append_assoc]

/-- The offsets of all passages of a comment are among those of the items of its lines. -/
theorem sublist_offsets (reading : analysis.IsReadingOf settings block) :
    (analysis.passages.flatMap fun passage => passage.provenance.offsets).Sublist
      ((itemsOf settings block.start analysis.lines).flatMap ProseItem.bytes) := by
  have sections : (itemsOf settings block.start analysis.lines).flatMap ProseItem.bytes =
      (sectionsOf analysis.lines).flatMap fun part =>
        (itemsOf settings block.start part.2).flatMap ProseItem.bytes := by
    simp only [itemsOf]
    rw [← List.flatMap_assoc, ← List.flatMap_assoc, flatMap_sectionsOf]
  rw [reading.passages, flatMap_passagesOf (fun draft => draft.2.offsets), sections]
  exact List.Sublist.flatMap_right _ fun part _ => ProseItem.sublist_offsets_passages _

end IsReadingOf

end Analysis

end CommentProse
