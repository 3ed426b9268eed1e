import CommentProse.Proofs.Discovery
import CommentProse.Proofs.Placement
import CommentProse.Report.Listing

/-! # From passages back to the source

Each character of a passage stands in the source at the offset that the passage names for it, or is
a space that stands for a blank of the source. Only a line that ends at the closer has no blank at
its end; a space for it would be followed by prose behind the closer, and there is none. The offsets
increase strictly from byte to byte, from passage to passage and from comment to comment.
-/

namespace CommentProse

theorem StandsAt.shift {source : List Char} {block : Fragment} {offset : Nat} {c : Char}
    (stands : StandsAt block.text offset c) (occurs : block.OccursIn source) :
    StandsAt source (block.start + offset) c := by
  obtain ⟨before, after, whole, rfl⟩ := stands
  obtain ⟨front, back, rfl, start⟩ := occurs
  refine ⟨front ++ before, after ++ back, ?_, by rw [width_append, start]⟩
  rw [whole]
  simp only [List.append_assoc, List.cons_append]

namespace Analysis.IsReadingOf

variable {settings : Settings} {block : Fragment} {analysis : Analysis} {source : List Char}

/-- The bytes of the items of a comment are bytes of the comment. -/
theorem mem_range_of_mem_bytes (reading : analysis.IsReadingOf settings block) {origin : Nat}
    (member : origin ∈ (itemsOf settings block.start analysis.lines).flatMap ProseItem.bytes) :
    origin ∈ block.range := by
  obtain ⟨item, among, here⟩ := List.mem_flatMap.mp member
  obtain ⟨line, present, placed, within, rfl⟩ := exists_placedItem_of_mem among
  obtain ⟨-, -, upper, bytes⟩ :=
    SpannedLine.bounds_of_mem_placedItems (reading.spanned line present) within
  have last := DocComment.stop_le_closer (reading.line_mem present)
  have range := bytes origin here
  have total : width block.text =
      analysis.comment.closerFragment.start + width closer + width analysis.comment.trailing := by
    rw [← reading.source, DocComment.source, width_append, width_append]
    rfl
  have positive : 0 < width closer := by decide
  simp only [ByteRange.mem_iff, ByteRange.shift, Fragment.range, Fragment.stop] at range ⊢
  omega

/-- Prose stands in the source where the items say. -/
theorem standsAt_of_mem_glyphs (reading : analysis.IsReadingOf settings block)
    (occurs : block.OccursIn source) {glyph : Glyph}
    (member : glyph ∈ (itemsOf settings block.start analysis.lines).flatMap ProseItem.glyphs) :
    StandsAt source glyph.offset glyph.char ∧
      glyph.offset < block.start + analysis.comment.closerFragment.start := by
  obtain ⟨item, among, inside⟩ := List.mem_flatMap.mp member
  cases item with
  | lineEnd stop => simp [ProseItem.glyphs] at inside
  | division => simp [ProseItem.glyphs] at inside
  | text fragment =>
    obtain ⟨line, present, span, here, -, rfl⟩ := exists_span_of_text_mem among
    have spanned := reading.spanned line present
    have content := reading.content_occursIn present
    refine ⟨((spanned.slice_occursIn content here).shift occurs).standsAt inside, ?_⟩
    have last := DocComment.stop_le_closer (reading.line_mem present)
    obtain ⟨-, bounds⟩ := spanned.tiles.pairwise
    have bound : span.range.stop ≤ line.line.stop := (bounds span here).2.2
    obtain ⟨-, -, -, -, range⟩ := spanned.slice_part here
    have stop : (line.textOf span).stop = span.range.stop := congrArg ByteRange.stop range
    have upper := (Fragment.mem_bytes.mp (Fragment.offset_mem_bytes inside)).2
    simp only [Fragment.range, Fragment.shift, Fragment.stop] at upper stop
    omega

/-- A space that stands for a line end before the closer stands for a blank. -/
theorem standsAt_of_lineEnd_mem (reading : analysis.IsReadingOf settings block)
    (occurs : block.OccursIn source) {stop : Nat}
    (member : .lineEnd stop ∈ itemsOf settings block.start analysis.lines)
    (early : stop < block.start + analysis.comment.closerFragment.start) :
    ∃ c, isBlank c = true ∧ StandsAt source stop c := by
  obtain ⟨line, present, rfl⟩ := exists_line_of_lineEnd_mem member
  rcases DocComment.stop_eq_or_blank (reading.line_mem present) with closes | ⟨c, blank, stands⟩
  · omega
  · rw [reading.source] at stands
    exact ⟨c, blank, stands.shift occurs⟩

/-- The characters of a passage come from items of the comment, and stand before its closer. -/
theorem exists_holds_of_mem_passages (reading : analysis.IsReadingOf settings block)
    (occurs : block.OccursIn source) {passage : Passage} (member : passage ∈ analysis.passages) :
    ∃ stretch glyphs, stretch ⊆ itemsOf settings block.start analysis.lines ∧
      Draft.Holds stretch glyphs ⟨passage.text, passage.provenance, none⟩ ∧
      ∀ glyph ∈ glyphs, glyph.offset < block.start + analysis.comment.closerFragment.start := by
  obtain ⟨before, stretch, after, whole, front, last, visible, holds⟩ :=
    reading.exists_stretch_of_mem_passages member
  have inside : stretch ⊆ itemsOf settings block.start analysis.lines := by
    intro item among
    rw [whole]
    exact List.mem_append_left _ (List.mem_append_right _ among)
  have sublist := holds.sublist
  have yields := holds.yields
  rw [Draft.due_of_joint rfl, List.append_nil] at sublist yields
  -- The last character is visible, so it is text, and the bytes before it have smaller offsets.
  have final : last.offset < block.start + analysis.comment.closerFragment.start := by
    rcases yields last (List.mem_append_right _ (List.mem_singleton_self _)) with text | ⟨space, -⟩
    · obtain ⟨item, among, here⟩ := List.mem_flatMap.mp text
      exact (reading.standsAt_of_mem_glyphs occurs
        (List.mem_flatMap.mpr ⟨item, inside among, here⟩)).2
    · rw [Glyph.isVisible, space] at visible
      exact absurd visible (by decide)
  have ordered : ((front ++ [last]).flatMap Glyph.bytes).Pairwise (· < ·) := by
    have bytes : ((itemsOf settings block.start analysis.lines).flatMap ProseItem.bytes).Pairwise
        (· < ·) := reading.pairwise_bytes block.start
    rw [whole, List.flatMap_append, List.flatMap_append, List.pairwise_append,
      List.pairwise_append] at bytes
    exact bytes.1.2.1.sublist sublist
  refine ⟨stretch, front ++ [last], inside, holds, ?_⟩
  intro glyph among
  rcases List.mem_append.mp among with earlier | now
  · rw [List.flatMap_append, List.flatMap_singleton, List.pairwise_append] at ordered
    have order := ordered.2.2 glyph.offset
      (List.mem_flatMap.mpr ⟨glyph, earlier, glyph.offset_mem_bytes⟩) last.offset
      last.offset_mem_bytes
    exact order.trans final
  · rwa [List.mem_singleton.mp now]

/-- Each character of a passage is a character of the source, or a space for a blank of it. -/
theorem round_trip (reading : analysis.IsReadingOf settings block) (occurs : block.OccursIn source)
    {passage : Passage} (member : passage ∈ analysis.passages) {position : Nat} {c : Char}
    (stands : StandsAt passage.text position c) :
    ∃ origin found, passage.provenance.origin? position = some origin ∧
      StandsAt source origin found ∧ (found = c ∨ c = ' ' ∧ isBlank found = true) := by
  obtain ⟨stretch, glyphs, inside, holds, early⟩ := reading.exists_holds_of_mem_passages occurs member
  obtain ⟨glyph, among, origin, rfl⟩ := holds.exists_glyph_of_standsAt stands
  refine ⟨glyph.offset, ?_⟩
  have standsIn : ∀ other ∈ stretch.flatMap ProseItem.glyphs,
      StandsAt source other.offset other.char := by
    intro other present
    obtain ⟨item, within, here⟩ := List.mem_flatMap.mp present
    exact (reading.standsAt_of_mem_glyphs occurs
      (List.mem_flatMap.mpr ⟨item, inside within, here⟩)).1
  rcases holds.yields glyph (List.mem_append_left _ among) with
    text | ⟨space, ⟨blank, present, offset, hidden⟩ | lineEnd⟩
  · exact ⟨glyph.char, origin, standsIn glyph text, .inl rfl⟩
  · refine ⟨blank.char, origin, ?_, .inr ⟨space, by simpa [Glyph.isVisible] using hidden⟩⟩
    rw [← offset]
    exact standsIn blank present
  · obtain ⟨found, blank, here⟩ :=
      reading.standsAt_of_lineEnd_mem occurs (inside lineEnd) (early glyph among)
    exact ⟨found, origin, here, .inr ⟨space, blank⟩⟩

end Analysis.IsReadingOf

/-! ### All passages of a source -/

namespace FoundComment

variable {settings : Settings} {source : List Char}

theorem exists_analysis_of_mem_passagesIn {passage : Passage}
    (member : passage ∈ passagesIn (all settings source)) :
    ∃ block ∈ docComments source, ∃ analysis, Analysis.ofBlock settings block = .ok analysis ∧
      passage ∈ analysis.passages := by
  obtain ⟨found, among, here⟩ := List.mem_flatMap.mp member
  obtain ⟨block, present, rfl⟩ := List.mem_map.mp among
  refine ⟨block, present, ?_⟩
  rw [analysis?] at here
  cases analysed : Analysis.ofBlock settings block with
  | error fault => simp [analysed, Except.toOption] at here
  | ok analysis => exact ⟨analysis, rfl, by simpa [analysed, Except.toOption] using here⟩

/-- The offsets of the bytes of the passages of a found comment. -/
def offsets (found : FoundComment) : List Nat :=
  ((found.analysis?.map Analysis.passages).getD []).flatMap fun passage => passage.provenance.offsets

/-- They increase, and lie in the comment. -/
theorem offsets_ofBlock (settings : Settings) (block : Fragment) :
    (FoundComment.mk block (Analysis.ofBlock settings block)).offsets.Pairwise (· < ·) ∧
      ∀ origin ∈ (FoundComment.mk block (Analysis.ofBlock settings block)).offsets,
        origin ∈ block.range := by
  rw [offsets, analysis?]
  cases analysed : Analysis.ofBlock settings block with
  | error fault =>
    refine ⟨List.Pairwise.nil, ?_⟩
    intro origin member
    cases member
  | ok analysis =>
    have reading := Analysis.isReadingOf_of_ofBlock analysed
    have sublist := reading.sublist_offsets
    refine ⟨(reading.pairwise_bytes block.start).sublist sublist, ?_⟩
    intro origin member
    exact reading.mem_range_of_mem_bytes (sublist.subset member)

/-- The offsets of the passages of all comments increase, from one comment to the next as well. -/
theorem pairwise_offsets (settings : Settings) (source : List Char) :
    ((passagesIn (all settings source)).flatMap fun passage => passage.provenance.offsets).Pairwise
      (· < ·) := by
  have apart := pairwise_docComments source
  rw [passagesIn, List.flatMap_assoc, all, List.flatMap_map]
  refine List.pairwise_flatMap.mpr ⟨?_, apart.imp ?_⟩
  · intro block member
    exact (offsets_ofBlock settings block).1
  · intro block later order origin here other there
    have upper := (offsets_ofBlock settings block).2 origin here
    have lower := (offsets_ofBlock settings later).2 other there
    simp only [ByteRange.mem_iff, Fragment.range] at upper lower
    omega

/-- For every passage of every comment of a source, the provenance is as long as the text; each
character of the text is the character of the source that stands at its origin, or a space whose
origin is that of a blank. The origins of all bytes of all passages strictly increase, so no byte of
the source is in two places, and passages neither overlap nor come out of order. -/
theorem origins_round_trip (settings : Settings) (source : List Char) :
    (∀ passage ∈ passagesIn (all settings source),
      passage.provenance.size = width passage.text ∧
      ∀ position c, StandsAt passage.text position c →
        ∃ origin found, passage.provenance.origin? position = some origin ∧
          StandsAt source origin found ∧ (found = c ∨ c = ' ' ∧ isBlank found = true)) ∧
    ∃ origins : List Nat,
      (passagesIn (all settings source)).flatMap (fun passage =>
        (List.range (width passage.text)).map passage.provenance.origin?) = origins.map some ∧
      origins.Pairwise (· < ·) := by
  have sizes : ∀ passage ∈ passagesIn (all settings source),
      passage.provenance.size = width passage.text := by
    intro passage member
    obtain ⟨block, -, analysis, analysed, here⟩ := exists_analysis_of_mem_passagesIn member
    have reading := Analysis.isReadingOf_of_ofBlock analysed
    obtain ⟨before, stretch, after, -, isPassage⟩ := reading.exists_stretch_of_mem_passages here
    exact isPassage.size_eq
  refine ⟨?_, _, ?_, pairwise_offsets settings source⟩
  · intro passage member
    refine ⟨sizes passage member, ?_⟩
    intro position c stands
    obtain ⟨block, present, analysis, analysed, here⟩ := exists_analysis_of_mem_passagesIn member
    have reading := Analysis.isReadingOf_of_ofBlock analysed
    exact reading.round_trip (occursIn_of_mem_docComments present) here stands
  · rw [List.map_flatMap]
    apply List.flatMap_congr
    intro passage member
    rw [← sizes passage member]
    exact passage.provenance.map_origin?_range

/-- A blank of three bytes and the line break behind it become one space, which stands for the
blank. -/
example : (passagesIn (all .standard "x /** é\u3000\r\n * b*/".toList)).map
    (fun passage => (passage.text, passage.provenance.runs)) =
      [("é b".toList, [⟨6, 3⟩, ⟨16, 1⟩])] := by
  decide +kernel

end FoundComment

end CommentProse
