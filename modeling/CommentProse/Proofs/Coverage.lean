import CommentProse.Proofs.Markup.Reading
import CommentProse.Proofs.Unfinished
import Mathlib.Data.List.Forall2

/-! # The spans of a comment cover its lines

Each line is read to spans of its content, whatever is open before it. What is given up later covers
ranges between boundaries of the comment, so making markup of it cuts spans only between characters.
`Analysis.IsReadingOf` gathers what holds of every analysis for the proofs about its prose and its
syntax tree; `Analysis.spans_cover_lines` states the coverage in terms of ranges and texts.
-/

namespace CommentProse

namespace CommentLine

/-- A blank line is no tag line. -/
theorem tagHead?_of_isBlank {line : CommentLine} (blank : line.isBlank = true) :
    line.tagHead? = none := by
  have nothing : line.text.dropWhile CommentProse.isBlank = [] := by
    rw [List.dropWhile_eq_nil_iff]
    exact List.all_eq_true.mp blank
  rw [tagHead?, TagHead.parse?]
  dsimp only [Fragment.spanWhile, Fragment.dropWhile, content]
  rw [nothing]

end CommentLine

namespace OpenMarkup

variable (settings : Settings) (markup : OpenMarkup) (line : CommentLine)

theorem isSpannedBy_readContent :
    line.content.IsSpannedBy (markup.readContent settings line).1 := by
  rw [readContent]
  split
  · next head parsed =>
    obtain ⟨front, parts, start, headed⟩ := (TagHead.tiles_of_parse? parsed).isSpannedBy
    have whole := headed.append (isSpannedBy_readLine settings markup head.body) start
    rwa [← parts] at whole
  · exact isSpannedBy_readLine settings markup line.content

/-- No span of a blank line divides prose, for neither a tag nor a reference is open in it. -/
theorem divides_readContent_of_isBlank (blank : line.isBlank = true) :
    ∀ span ∈ ((markup.openAt line).readContent settings line).1, span.divides = false := by
  have headless := CommentLine.tagHead?_of_isBlank blank
  have openAt_eq : markup.openAt line = markup.closed .blankLine := by
    simp [openAt, CommentLine.edge?, headless, blank]
  rw [openAt_eq, readContent, headless]
  exact divides_readLine_of_allBlank settings rfl rfl blank

theorem forall₂_readLines (settings : Settings) (markup : OpenMarkup) (lines : List CommentLine) :
    List.Forall₂ (fun line spans => line.content.IsSpannedBy spans ∧
      (line.isBlank = true → ∀ span ∈ spans, span.divides = false))
      lines (markup.readLines settings lines).1 := by
  induction lines generalizing markup with
  | nil => exact .nil
  | cons line lines ih =>
    exact .cons ⟨isSpannedBy_readContent settings _ line,
      divides_readContent_of_isBlank settings markup line⟩ (ih _)

end OpenMarkup

namespace Unfinished

theorem isSpannedBy_relabel {text : List Char} {fragment : Fragment} {spans : List Span}
    (spanned : fragment.IsSpannedBy spans) (occurs : fragment.OccursIn text)
    {unfinished : List Unfinished}
    (ends : ∀ item ∈ unfinished, IsBoundary text item.range.start ∧ IsBoundary text item.range.stop) :
    fragment.IsSpannedBy (relabel unfinished spans) := by
  induction unfinished generalizing spans with
  | nil => exact spanned
  | cons item unfinished ih =>
    obtain ⟨first, last⟩ := ends item List.mem_cons_self
    exact ih (spanned.relabelAll occurs first last)
      fun other among => ends other (List.mem_cons_of_mem _ among)

/-- What becomes of a span is part of it: markup, or a part of its role that no unfinished markup
covers. -/
theorem mem_relabel {unfinished : List Unfinished} {spans : List Span} {span : Span}
    (member : span ∈ relabel unfinished spans) :
    ∃ source ∈ spans, source.range.start ≤ span.range.start ∧
      span.range.stop ≤ source.range.stop ∧ span.divides = source.divides ∧
      (span.role = .markup ∨ span.role = source.role ∧
        ∀ item ∈ unfinished, ∀ offset ∈ span.range, offset ∉ item.range) := by
  induction unfinished generalizing spans with
  | nil => exact ⟨span, member, Nat.le_refl _, Nat.le_refl _, rfl, .inr ⟨rfl, by simp⟩⟩
  | cons item unfinished ih =>
    obtain ⟨middle, among, lower, upper, divides, kept⟩ := ih member
    obtain ⟨source, first, part⟩ := List.mem_flatMap.mp among
    obtain ⟨before, behind, flag, here⟩ := Span.mem_relabel part
    refine ⟨source, first, before.trans lower, upper.trans behind, divides.trans flag, ?_⟩
    rcases kept with markup | ⟨same, outside⟩
    · exact .inl markup
    · rcases here with markup | ⟨role, apart⟩
      · exact .inl (same.trans markup)
      · refine .inr ⟨same.trans role, ?_⟩
        intro other member offset inside
        rcases List.mem_cons.mp member with rfl | later
        · exact apart offset ⟨lower.trans inside.1, Nat.lt_of_lt_of_le inside.2 upper⟩
        · exact outside other later offset inside

/-- What no unfinished markup covers keeps its role. -/
theorem exists_mem_relabel {unfinished : List Unfinished} {spans : List Span} {source : Span}
    (member : source ∈ spans) {offset : Nat} (inside : offset ∈ source.range)
    (outside : ∀ item ∈ unfinished, offset ∉ item.range) :
    ∃ span ∈ relabel unfinished spans, offset ∈ span.range ∧ span.role = source.role := by
  induction unfinished generalizing spans source with
  | nil => exact ⟨source, member, inside, rfl⟩
  | cons item unfinished ih =>
    obtain ⟨first, later⟩ := List.forall_mem_cons.mp outside
    obtain ⟨part, among, here, same⟩ := Span.exists_mem_relabel inside first
    obtain ⟨span, present, covers, role⟩ := ih (List.mem_flatMap.mpr ⟨source, member, among⟩) here
      later
    exact ⟨span, present, covers, role.trans same⟩

end Unfinished

/-- The lines from a place on where `markup` is open, each with its spans after all that is given up
there has been made markup. -/
def SpannedLine.ofLines (settings : Settings) (markup : OpenMarkup) (lines : List CommentLine) :
    List SpannedLine :=
  (lines.zip (markup.readLines settings lines).1).map fun (line, spans) =>
    ⟨line, Unfinished.relabel (markup.readLines settings lines).2 spans⟩

theorem SpannedLine.map_line_ofLines (settings : Settings) (markup : OpenMarkup)
    (lines : List CommentLine) : (ofLines settings markup lines).map line = lines := by
  rw [ofLines, List.map_map]
  exact List.map_fst_zip (OpenMarkup.forall₂_readLines settings markup lines).length_eq.le

/-- Wherever in a text the lines are, their spans are spans of their contents in the end. -/
theorem SpannedLine.isSpannedBy_of_mem_ofLines (settings : Settings) {reach : Nat}
    {lines : List CommentLine} {text : List Char}
    (occur : ∀ line ∈ lines, line.content.OccursIn text) {line : SpannedLine}
    (member : line ∈ ofLines settings (.idle reach) lines) :
    line.line.content.IsSpannedBy line.spans := by
  have spanned := OpenMarkup.forall₂_readLines settings (.idle reach) lines
  obtain ⟨⟨written, spans⟩, paired, rfl⟩ := List.mem_map.mp member
  apply Unfinished.isSpannedBy_relabel (List.forall₂_iff_zip.mp spanned |>.2 paired).1
    (occur written (List.of_mem_zip paired).1)
  intro item given
  exact (OpenMarkup.standsIn_lines_of_mem_readLines settings given).isBoundary occur

namespace Analysis

/-- What holds of the analysis of a comment. -/
structure IsReadingOf (settings : Settings) (block : Fragment) (analysis : Analysis) : Prop where
  offset : analysis.offset = block.start
  source : analysis.comment.source = block.text
  lines : analysis.lines.map SpannedLine.line = analysis.comment.lines
  spanned : ∀ line ∈ analysis.lines, line.line.content.IsSpannedBy line.spans
  blank : ∀ line ∈ analysis.lines, line.line.isBlank = true →
    ∀ span ∈ line.spans, span.divides = false
  passages : analysis.passages = passagesOf settings block.start analysis.lines

/-- The analysis of a comment at an offset. -/
def ofComment (settings : Settings) (offset : Nat) (comment : DocComment) : Analysis where
  offset := offset
  comment := comment
  lines := SpannedLine.ofLines settings .none comment.lines
  unfinished := (OpenMarkup.none.readLines settings comment.lines).2
  passages := passagesOf settings offset (SpannedLine.ofLines settings .none comment.lines)

/-- A text is analysed exactly if it parses as a comment. -/
theorem ofBlock_eq_ok_iff {settings : Settings} {block : Fragment} {analysis : Analysis} :
    ofBlock settings block = .ok analysis ↔
      ∃ comment, DocComment.parse block.text = .ok comment ∧
        analysis = ofComment settings block.start comment := by
  rw [ofBlock]
  constructor
  · intro analysed
    split at analysed
    · simp at analysed
    · next comment parsed =>
      cases analysed
      exact ⟨comment, parsed, rfl⟩
  · rintro ⟨comment, parsed, rfl⟩
    rw [parsed]
    rfl

theorem isReadingOf_of_ofBlock {settings : Settings} {block : Fragment} {analysis : Analysis}
    (analysed : ofBlock settings block = .ok analysis) : analysis.IsReadingOf settings block := by
  obtain ⟨comment, parsed, rfl⟩ := ofBlock_eq_ok_iff.mp analysed
  refine ⟨rfl, DocComment.source_of_parse parsed, SpannedLine.map_line_ofLines settings _ _, ?_,
    ?_, rfl⟩
  · intro line member
    exact SpannedLine.isSpannedBy_of_mem_ofLines settings
      (fun line => DocComment.content_occursIn) member
  · intro line member blank span among
    obtain ⟨⟨written, spans⟩, paired, rfl⟩ := List.mem_map.mp member
    obtain ⟨source, first, -, -, same, -⟩ := Unfinished.mem_relabel among
    have spanned := OpenMarkup.forall₂_readLines settings .none comment.lines
    rw [same]
    exact (List.forall₂_iff_zip.mp spanned |>.2 paired).2 blank source first

namespace IsReadingOf

variable {settings : Settings} {block : Fragment} {analysis : Analysis} {line : SpannedLine}

theorem line_mem (reading : analysis.IsReadingOf settings block)
    (member : line ∈ analysis.lines) : line.line ∈ analysis.comment.lines := by
  rw [← reading.lines]
  exact List.mem_map_of_mem member

theorem fragment_occursIn (reading : analysis.IsReadingOf settings block)
    (member : line ∈ analysis.lines) : line.line.fragment.OccursIn block.text := by
  rw [← reading.source]
  exact DocComment.fragment_occursIn (reading.line_mem member)

theorem content_occursIn (reading : analysis.IsReadingOf settings block)
    (member : line ∈ analysis.lines) : line.line.content.OccursIn block.text :=
  CommentLine.content_occursIn (reading.fragment_occursIn member)

end IsReadingOf

/-- However markup is nested, broken over lines or given up, the spans of each line of a comment
tile the content of the line and spell it, and only markup divides. Straight out of reading, no two
neighbours are of equal kind, whatever was open before. -/
theorem spans_cover_lines (settings : Settings) (block : Fragment) {analysis : Analysis}
    (analysed : ofBlock settings block = .ok analysis) :
    analysis.lines.map SpannedLine.line = analysis.comment.lines ∧
    (∀ line ∈ analysis.lines,
      line.line.content.OccursIn block.text ∧
      Span.Tiles line.line.content.start line.line.content.stop line.spans ∧
      line.spans.flatMap (fun span => (line.textOf span).text) = line.line.text ∧
      ∀ span ∈ line.spans, span.divides = true → span.role = .markup) ∧
    ∀ (markup : OpenMarkup) (content : Fragment),
      (markup.readLine settings content).1.IsChain
        (fun span next => ¬(span.role = next.role ∧ span.divides = next.divides)) ∧
      ∀ span ∈ (markup.readLine settings content).1, span.divides = true → span.role = .markup := by
  have reading := isReadingOf_of_ofBlock analysed
  refine ⟨reading.lines, ?_, ?_⟩
  · intro line member
    have spanned := reading.spanned line member
    have among : line.line ∈ analysis.comment.lines := by
      rw [← reading.lines]
      exact List.mem_map_of_mem member
    refine ⟨?_, spanned.tiles, spanned.flatMap_slice, fun span => spanned.role_of_divides⟩
    rw [← reading.source]
    exact DocComment.content_occursIn among
  · intro markup content
    exact ⟨OpenMarkup.isChain_readLine settings markup content,
      fun span => (OpenMarkup.isSpannedBy_readLine settings markup content).role_of_divides⟩

/-- A reference that the next tag line gives up: its three spans become markup, and still cover the
line. -/
theorem spans_cover_lines_given_up :
    ∃ analysis, ofBlock .standard ⟨0, "/** \x7b@a b\n@c d*/".toList⟩ = .ok analysis ∧
      analysis.unfinished = [⟨.reference "a", ⟨4, 9⟩⟩] ∧
      (analysis.lines.map SpannedLine.spans) =
        [[⟨.markup, ⟨4, 6⟩, false⟩, ⟨.markup, ⟨6, 7⟩, false⟩, ⟨.markup, ⟨7, 9⟩, false⟩],
          [⟨.markup, ⟨10, 11⟩, false⟩, ⟨.tagName, ⟨11, 12⟩, false⟩, ⟨.prose, ⟨12, 14⟩, false⟩]] ∧
      ∀ line ∈ analysis.lines,
        Span.Tiles line.line.content.start line.line.content.stop line.spans := by
  have analysed : ofBlock .standard ⟨0, "/** \x7b@a b\n@c d*/".toList⟩ = .ok
      { offset := 0
        comment := ⟨" \x7b@a b\n@c d".toList, []⟩
        lines :=
          [⟨⟨3, [' '], "\x7b@a b".toList, ['\n']⟩,
            [⟨.markup, ⟨4, 6⟩, false⟩, ⟨.markup, ⟨6, 7⟩, false⟩, ⟨.markup, ⟨7, 9⟩, false⟩]⟩,
          ⟨⟨10, [], "@c d".toList, []⟩,
            [⟨.markup, ⟨10, 11⟩, false⟩, ⟨.tagName, ⟨11, 12⟩, false⟩,
              ⟨.prose, ⟨12, 14⟩, false⟩]⟩]
        unfinished := [⟨.reference "a", ⟨4, 9⟩⟩]
        passages := [⟨0, 0, .tag 0 "c", ['d'], ⟨[⟨13, 1⟩]⟩⟩] } := by decide +kernel
  refine ⟨_, analysed, rfl, rfl, ?_⟩
  intro line member
  exact ((spans_cover_lines .standard _ analysed).2.1 line member).2.1

end Analysis

end CommentProse
