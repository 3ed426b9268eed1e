import CommentProse.Proofs.Placement

/-! # Unfinished markup fails safe

Markup that is never closed takes up the text from where it was opened to the end of the last line
before it is given up, all of it in one section. Whatever it covers in any line is markup in the end,
so no passage has text from there; only a space that joins two lines may stand for a line end in it.
-/

namespace CommentProse.Analysis

variable {settings : Settings} {block : Fragment} {analysis : Analysis} {item : Unfinished}

/-- What unfinished markup covers is markup. -/
theorem role_of_mem_unfinished (analysed : ofBlock settings block = .ok analysis)
    (member : item ∈ analysis.unfinished) {line : SpannedLine} (present : line ∈ analysis.lines)
    {span : Span} (among : span ∈ line.spans) {offset : Nat} (inside : offset ∈ span.range)
    (covered : offset ∈ item.range) : span.role = .markup := by
  obtain ⟨comment, parsed, rfl⟩ := ofBlock_eq_ok_iff.mp analysed
  obtain ⟨⟨written, spans⟩, -, rfl⟩ := List.mem_map.mp present
  obtain ⟨source, -, -, -, -, markup | ⟨-, outside⟩⟩ := Unfinished.mem_relabel among
  · exact markup
  · exact absurd covered (outside item member offset inside)

/-- Unfinished markup stands in one of the sections. -/
theorem exists_section_of_mem_unfinished (analysed : ofBlock settings block = .ok analysis)
    (member : item ∈ analysis.unfinished) :
    ∃ part ∈ analysis.outline.sections, item.StandsIn (part.2.map SpannedLine.line) := by
  have reading := isReadingOf_of_ofBlock analysed
  obtain ⟨comment, parsed, rfl⟩ := ofBlock_eq_ok_iff.mp analysed
  obtain ⟨part, present, stands⟩ := OpenMarkup.standsIn_section_of_mem_readLines settings member
  have lines : (ofComment settings block.start comment).lines.map SpannedLine.line =
      comment.lines := reading.lines
  have heads (line : SpannedLine) : line.line.tagHead? = line.tagHead?.map id :=
    (congrFun Option.map_id line.tagHead?).symm
  have names (head : TagHead) : (id head).tagName = head.tagName := rfl
  rw [← lines, Outline.ofLines_map heads, Outline.sections_map names] at present
  obtain ⟨original, among, rfl⟩ := List.mem_map.mp present
  exact ⟨original, among, stands⟩

namespace IsReadingOf

/-- Lines that unfinished markup covers in part are in its section. -/
theorem mem_section_of_mem_range (reading : analysis.IsReadingOf settings block)
    {part : Origin × List SpannedLine} (present : part ∈ analysis.outline.sections)
    (stands : item.StandsIn (part.2.map SpannedLine.line)) {line : SpannedLine}
    (member : line ∈ analysis.lines) {offset : Nat} (inside : offset ∈ line.line.content.range)
    (covered : offset ∈ item.range) : line ∈ part.2 := by
  obtain ⟨_, opening, opens⟩ := stands.opened
  obtain ⟨_, closing, stop⟩ := stands.exists_last
  obtain ⟨first, firstMember, rfl⟩ := List.mem_map.mp opening
  obtain ⟨last, lastMember, rfl⟩ := List.mem_map.mp closing
  obtain ⟨before, after, parts⟩ := exists_append_of_mem_sectionsOf present
  have ordered := reading.pairwise_lines
  rw [parts, List.pairwise_append, List.pairwise_append] at ordered
  obtain ⟨⟨-, -, earlier⟩, -, later⟩ := ordered
  have start := opens.bounds.1
  have margin : first.line.start ≤ first.line.content.start := Nat.le_add_right _ _
  have indent : line.line.start ≤ line.line.content.start := Nat.le_add_right _ _
  have upper : offset < line.line.stop := inside.2
  have lower : line.line.content.start ≤ offset := inside.1
  rw [ByteRange.mem_iff] at covered
  rw [parts, List.mem_append, List.mem_append] at member
  rcases member with (front | here) | back
  · have order := earlier line front first firstMember
    omega
  · exact here
  · have order := later last (List.mem_append_right _ lastMember) line back
    omega

/-- A character of a passage whose origin is not in prose is the space for a line end. -/
theorem eq_space_of_origin (reading : analysis.IsReadingOf settings block) {passage : Passage}
    (member : passage ∈ analysis.passages) {position origin : Nat} {c : Char}
    (stands : StandsAt passage.text position c)
    (found : passage.provenance.origin? position = some origin)
    (outside : ∀ line ∈ analysis.lines, ∀ span ∈ line.spans, span.role = .prose →
      origin ∉ span.range.shift block.start) :
    c = ' ' ∧ ∃ line ∈ analysis.lines, origin = block.start + line.line.stop := by
  obtain ⟨before, stretch, after, items, front, last, -, holds⟩ :=
    reading.exists_stretch_of_mem_passages member
  have inside : stretch ⊆ itemsOf settings block.start analysis.lines := by
    rw [items]
    exact fun item among => List.mem_append_left _ (List.mem_append_right _ among)
  obtain ⟨glyph, among, same, rfl⟩ := holds.exists_glyph_of_standsAt stands
  obtain rfl : glyph.offset = origin := Option.some.inj (same.symm.trans found)
  -- The bytes of every text item are in a span of prose.
  have noText : ∀ other ∈ stretch.flatMap ProseItem.glyphs, other.offset ≠ glyph.offset := by
    intro other present equal
    obtain ⟨item, within, here⟩ := List.mem_flatMap.mp present
    cases item with
    | lineEnd stop => cases here
    | division => cases here
    | text fragment =>
      obtain ⟨line, lineMember, span, spanMember, prose, rfl⟩ :=
        exists_span_of_text_mem (inside within)
      obtain ⟨-, -, -, -, range⟩ := (reading.spanned line lineMember).slice_part spanMember
      have bytes := Fragment.mem_bytes.mp (Fragment.offset_mem_bytes here)
      apply outside line lineMember span spanMember prose
      rw [← equal, ← range]
      simpa [ByteRange.mem_iff, ByteRange.shift, Fragment.range, Fragment.shift, Fragment.stop,
        Nat.add_assoc, SpannedLine.textOf] using bytes
  rcases holds.yields glyph (List.mem_append_left _ among) with
    text | ⟨space, ⟨blank, present, offset, -⟩ | lineEnd⟩
  · exact absurd rfl (noText glyph text)
  · exact absurd offset (noText blank present)
  · exact ⟨space, exists_line_of_lineEnd_mem (inside lineEnd)⟩

end IsReadingOf

/-- Unfinished markup covers at least one byte. It begins where the text opens its construct, ends
with the content of a line, and lies in the lines of one section; all content that it covers is
markup, on whatever line. So no character of a passage comes from it, but for a space that joins two
lines and stands for the end of one of them. -/
theorem unfinished_fails_safe (settings : Settings) (block : Fragment) {analysis : Analysis}
    (analysed : ofBlock settings block = .ok analysis) {item : Unfinished}
    (member : item ∈ analysis.unfinished) :
    item.range.start < item.range.stop ∧
    (∃ part ∈ analysis.outline.sections,
      (∃ first ∈ part.2, first.line.OpensAt item.construct item.range.start) ∧
      (∃ last ∈ part.2, item.range.stop = last.line.stop) ∧
      ∀ line ∈ analysis.lines, ∀ offset ∈ line.line.content.range, offset ∈ item.range →
        line ∈ part.2) ∧
    (∀ line ∈ analysis.lines, ∀ offset ∈ line.line.content.range, offset ∈ item.range →
      ∃ span ∈ line.spans, offset ∈ span.range ∧ span.role = .markup) ∧
    ∀ passage ∈ analysis.passages, ∀ position c origin, StandsAt passage.text position c →
      passage.provenance.origin? position = some origin →
      origin ∈ item.range.shift analysis.offset →
        c = ' ' ∧ ∃ line ∈ analysis.lines, origin = analysis.offset + line.line.stop := by
  have reading := isReadingOf_of_ofBlock analysed
  obtain ⟨part, present, stands⟩ := exists_section_of_mem_unfinished analysed member
  refine ⟨?_, ⟨part, present, ?_, ?_, ?_⟩, ?_, ?_⟩
  · obtain ⟨before, after, parts⟩ := exists_append_of_mem_sectionsOf present
    have ordered := reading.pairwise_lines
    rw [parts, List.pairwise_append, List.pairwise_append] at ordered
    exact stands.start_lt_stop (List.pairwise_map.mpr ordered.1.2.1)
  · obtain ⟨_, opening, opens⟩ := stands.opened
    obtain ⟨first, among, rfl⟩ := List.mem_map.mp opening
    exact ⟨first, among, opens⟩
  · obtain ⟨_, closing, stop⟩ := stands.exists_last
    obtain ⟨last, among, rfl⟩ := List.mem_map.mp closing
    exact ⟨last, among, stop⟩
  · intro line among offset inside covered
    exact reading.mem_section_of_mem_range present stands among inside covered
  · intro line among offset inside covered
    obtain ⟨span, spanMember, within⟩ :=
      (reading.spanned line among).tiles.exists_mem inside.1 inside.2
    exact ⟨span, spanMember, within,
      role_of_mem_unfinished analysed member among spanMember within covered⟩
  · intro passage among position c origin stands found covered
    rw [reading.offset] at covered ⊢
    apply reading.eq_space_of_origin among stands found
    -- A span of prose with a byte in the range would have been made markup.
    intro line lineMember span spanMember prose inside
    have within : origin - block.start ∈ span.range := by
      simp only [ByteRange.mem_iff, ByteRange.shift] at inside ⊢
      omega
    have markup := role_of_mem_unfinished analysed member lineMember spanMember within (by
      simp only [ByteRange.mem_iff, ByteRange.shift] at covered ⊢
      omega)
    rw [prose] at markup
    cases markup

/-- A reference with an unfinished tag in it is given up at a blank line. The joining space stands
for the end of the first line, and this lies in the reference. -/
theorem unfinished_fails_safe_nested :
    ∃ analysis, ofBlock { Settings.standard with blankLinesDivide := false }
        ⟨2, "/** a\x7b@return x <i y\n * z\n *\n * d*/".toList⟩ = .ok analysis ∧
      analysis.unfinished = [⟨.tag "i", ⟨16, 25⟩⟩, ⟨.reference "return", ⟨5, 25⟩⟩] ∧
      (analysis.passages.map fun passage => (passage.text, passage.provenance.runs)) =
        [("a d".toList, [⟨6, 1⟩, ⟨22, 1⟩, ⟨34, 1⟩])] ∧
      ∃ line ∈ analysis.lines, 22 = analysis.offset + line.line.stop := by
  have analysed : ofBlock { Settings.standard with blankLinesDivide := false }
      ⟨2, "/** a\x7b@return x <i y\n * z\n *\n * d*/".toList⟩ = .ok
      { offset := 2
        comment := ⟨" a\x7b@return x <i y\n * z\n *\n * d".toList, []⟩
        lines :=
          [⟨⟨3, [' '], "a\x7b@return x <i y".toList, ['\n']⟩,
            [⟨.prose, ⟨4, 5⟩, false⟩, ⟨.markup, ⟨5, 7⟩, false⟩, ⟨.markup, ⟨7, 13⟩, false⟩,
              ⟨.markup, ⟨13, 16⟩, false⟩, ⟨.markup, ⟨16, 20⟩, false⟩]⟩,
          ⟨⟨21, " * ".toList, ['z'], ['\n']⟩, [⟨.markup, ⟨24, 25⟩, false⟩]⟩,
          ⟨⟨26, " *".toList, [], ['\n']⟩, []⟩,
          ⟨⟨29, " * ".toList, ['d'], []⟩, [⟨.prose, ⟨32, 33⟩, false⟩]⟩]
        unfinished := [⟨.tag "i", ⟨16, 25⟩⟩, ⟨.reference "return", ⟨5, 25⟩⟩]
        passages := [⟨2, 0, .description, "a d".toList, ⟨[⟨6, 1⟩, ⟨22, 1⟩, ⟨34, 1⟩]⟩⟩] } := by
    decide +kernel
  have reference := @unfinished_fails_safe _ _ _ analysed ⟨.reference "return", ⟨5, 25⟩⟩ (by decide)
  refine ⟨_, analysed, rfl, rfl, ?_⟩
  exact (reference.2.2.2 _ (List.mem_singleton_self _) 1 ' ' 22 ⟨['a'], ['d'], rfl, rfl⟩
    (by decide) (by decide)).2

end CommentProse.Analysis
