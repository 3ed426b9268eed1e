import CommentProse.Proofs.BrokenReading
import CommentProse.Proofs.Comment.Wrapping

/-! # Wrapping lines

Prose may be wrapped at any single space: a line break and a margin in place of the space change
neither passages nor tags nor what is reported as unfinished
(`Analysis.rewrapping_keeps_analysis`). The new comment has the lines of the old one, with one of
them broken in two; lines with the same texts are read alike wherever they stand, so the two lines
are compared with the one in the places that they have there, a byte apart.
-/

namespace CommentProse

/-- Lines stay in order when one of them is broken. -/
theorem CommentLine.pairwise_cut {before behind : List CommentLine} {line : CommentLine}
    {text after : List Char} (parts : line.text = text ++ ' ' :: after)
    (ordered : (before ++ line :: behind).Pairwise fun line later => line.stop < later.start) :
    (before ++ line.front text :: line.back text after :: behind).Pairwise
      fun line later => line.stop < later.start := by
  have margin : line.start ≤ line.content.start := Nat.le_add_right _ _
  have frontStop : (line.front text).stop = line.content.start + width text := rfl
  have backStart : (line.back text after).start = line.content.start + width text + 1 := rfl
  have backStop : (line.back text after).stop = line.stop := by
    have size := congrArg width parts
    simp only [width_append, width_cons, show Char.utf8Size ' ' = 1 from rfl] at size
    simp only [stop, Fragment.stop, content, back, width_nil] at size ⊢
    omega
  have forward := DocComment.start_le_stop (line.back text after)
  rw [List.pairwise_append, List.pairwise_cons] at ordered
  obtain ⟨earlier, ⟨here, later⟩, across⟩ := ordered
  rw [List.pairwise_append, List.pairwise_cons, List.pairwise_cons]
  refine ⟨earlier, ⟨?_, ?_, later⟩, ?_⟩
  · intro other member
    rcases List.mem_cons.mp member with rfl | behind
    · omega
    · have := here other behind
      omega
  · intro other member
    have := here other member
    omega
  · intro other member next among
    have order := across other member
    rcases List.mem_cons.mp among with rfl | among
    · exact order line List.mem_cons_self
    · rcases List.mem_cons.mp among with rfl | among
      · have := order line List.mem_cons_self
        omega
      · exact order next (List.mem_cons_of_mem _ among)

/-- What is read in a line that is broken at a space in its prose. -/
theorem SpannedLine.broken_reading {line : SpannedLine} {text after : List Char}
    {first second : List Span} (spanned : line.line.content.IsSpannedBy line.spans)
    (breaks : line.line.BreaksAt text after) (single : SingleSpaced line.line.text)
    (heads : TagHead.Cut after line.line.tagHead? (line.line.front text).tagHead?)
    (broken : Span.Broken (line.line.content.start + width text) line.spans first second) :
    LineReading.Broken line.reading (reading ⟨line.line.front text, first⟩)
      (reading ⟨line.line.back text after, second⟩) where
  text := breaks.parts
  pieces := pieces_broken spanned breaks.parts broken
  spelled := by
    rw [reading, List.flatMap_map]
    exact spanned.flatMap_slice
  single := single
  visible := breaks.visible
  visibleAfter := breaks.visibleAfter
  heads := by
    rw [head?_reading, head?_reading]
    exact heads.unplaced
  headless := by
    rw [head?_reading]
    exact congrArg (Option.map TagHead.unplaced) breaks.headless

/-- What is read and given up in a comment with the texts of the lines of another one, but for one
of these, which is broken. -/
theorem SpannedLine.exists_broken_reading (settings : Settings) {comment wrapped : DocComment}
    {before behind : List SpannedLine} {line : SpannedLine} {text after : List Char}
    (shape : ofLines settings .none comment.lines = before ++ line :: behind)
    (breaks : line.line.BreaksAt text after) (single : SingleSpaced line.line.text)
    (prose : ∃ span ∈ line.spans,
      line.line.content.start + width text ∈ span.range ∧ span.role = .prose)
    (texts : wrapped.lines.map CommentLine.text =
      (before.map SpannedLine.line).map CommentLine.text ++
        text :: after :: (behind.map SpannedLine.line).map CommentLine.text) :
    ∃ first second, LineReading.Broken line.reading first second ∧
      (ofLines settings .none wrapped.lines).map reading =
        before.map reading ++ first :: second :: behind.map reading ∧
      (OpenMarkup.none.readLines settings wrapped.lines).2.map Unfinished.construct =
        (OpenMarkup.none.readLines settings comment.lines).2.map Unfinished.construct := by
  have spanned : line.line.content.IsSpannedBy line.spans := by
    have member : line ∈ ofLines settings .none comment.lines := by
      rw [shape]
      exact List.mem_append_right _ List.mem_cons_self
    exact isSpannedBy_of_mem_ofLines settings (fun line => DocComment.content_occursIn) member
  have ordered := comment.pairwise_lines
  rw [lines_eq_of_ofLines shape] at ordered
  obtain ⟨heads, first, second, broken, whole, unfinished⟩ := ofLines_cut shape breaks prose
  have same : wrapped.lines.map CommentLine.text =
      (before.map SpannedLine.line ++ line.line.front text ::
        line.line.back text after :: behind.map SpannedLine.line).map CommentLine.text := by
    rw [texts, List.map_append]
    rfl
  obtain ⟨readings, constructs⟩ := map_reading_ofLines settings 0 0 same wrapped.pairwise_lines
    (CommentLine.pairwise_cut breaks.parts ordered) fun line => DocComment.content_occursIn
  refine ⟨_, _, broken_reading spanned breaks single heads broken, readings.trans ?_,
    constructs.trans (congrArg (List.map Unfinished.construct) unfinished)⟩
  have parts := congrArg (List.map reading) whole
  rwa [List.map_append, List.map_cons, List.map_cons] at parts

namespace Analysis

/-- A space of the prose in a single-spaced line, with visible text before it and behind it in the
line, can be replaced by a line break and the margin of a new line, unless this makes a tag line of
what stands behind. The passages with their sections, the names, arguments and free texts of the
tags, and the unfinished markup in order, stay the same. -/
theorem rewrapping_keeps_analysis (settings : Settings) {block : Fragment} {analysis : Analysis}
    (analysed : ofBlock settings block = .ok analysis) {line : SpannedLine}
    (member : line ∈ analysis.lines) {before text after behind lineBreak : List Char}
    (source : block.text = before ++ line.line.text ++ behind)
    (place : width before = line.line.content.start)
    (content : line.line.text = text ++ ' ' :: after)
    (prose : ∃ span ∈ line.spans,
      span.role = .prose ∧ line.line.content.start + width text ∈ span.range)
    (visible : ∃ c ∈ text, isBlank c = false) (visibleAfter : ∃ c ∈ after, isBlank c = false)
    (spaces : ∀ c ∈ line.line.text, isBlank c = true → c = ' ')
    (apart : line.line.text.IsChain fun c next => ¬(isBlank c = true ∧ isBlank next = true))
    (headless : TagHead.parse? ⟨line.line.content.start + width text + 1, after⟩ = none)
    (isLineBreak : lineBreak = ['\n'] ∨ lineBreak = ['\r', '\n']) :
    ∃ rewrapped,
      ofBlock settings ⟨block.start,
        before ++ text ++ lineBreak ++ [' ', '*', ' '] ++ after ++ behind⟩ = .ok rewrapped ∧
      (rewrapped.passages.map fun passage => (passage.origin, passage.text)) =
        (analysis.passages.map fun passage => (passage.origin, passage.text)) ∧
      rewrapped.tagReports = analysis.tagReports ∧
      rewrapped.unfinished.map Unfinished.construct =
        analysis.unfinished.map Unfinished.construct := by
  have single : SingleSpaced line.line.text := ⟨spaces, apart⟩
  have breaks : line.line.BreaksAt text after := {
    parts := content
    visible := by simpa [allBlank] using visible
    visibleAfter := by simpa [allBlank] using visibleAfter
    headless := headless }
  have ends : text.getLast? ≠ some '\r' := by
    intro last
    rw [content] at single
    exact absurd (single.around.1 '\r' last) (by decide)
  obtain ⟨comment, parsed, rfl⟩ := ofBlock_eq_ok_iff.mp analysed
  obtain ⟨earlier, later, shape⟩ := List.append_of_mem member
  obtain ⟨wrapped, parsedWrapped, texts⟩ := DocComment.exists_parse_wrap parsed
    (SpannedLine.lines_eq_of_ofLines shape) content source place isLineBreak
    (by rintro rfl; simp at visible) ends (by rintro rfl; simp at visibleAfter)
  obtain ⟨span, among, role, covers⟩ := prose
  obtain ⟨first, second, broken, readings, constructs⟩ := SpannedLine.exists_broken_reading settings
    shape breaks single ⟨span, among, covers, role⟩ texts
  have alike := broken.outline settings (earlier.map SpannedLine.reading)
    (later.map SpannedLine.reading)
  have old : (ofComment settings block.start comment).lines.map SpannedLine.reading =
      earlier.map SpannedLine.reading ++ line.reading :: later.map SpannedLine.reading := by
    rw [shape, List.map_append, List.map_cons]
  have new : (ofComment settings block.start wrapped).lines.map SpannedLine.reading =
      earlier.map SpannedLine.reading ++ first :: second :: later.map SpannedLine.reading :=
    readings
  rw [← old, ← new] at alike
  refine ⟨_, ofBlock_eq_ok_iff.mpr ⟨wrapped, parsedWrapped, rfl⟩, ?_, ?_, constructs⟩
  · rw [ofComment, ofComment, map_passagesOf, map_passagesOf]
    exact alike.wordings_eq.symm
  · rw [tagReports_eq, tagReports_eq]
    exact alike.reports_eq.symm

/-- The prose of a tag line is wrapped before a tag that is never closed. -/
theorem rewrapping_keeps_analysis_tag_line :
    ∃ analysis rewrapped,
      ofBlock .standard ⟨0, "/** @param x one two <b\n */".toList⟩ = .ok analysis ∧
      ofBlock .standard ⟨0, "/** @param x one\r\n * two <b\n */".toList⟩ = .ok rewrapped ∧
      (rewrapped.passages.map fun passage => (passage.origin, passage.text)) =
        [(.tag 0 "param", "one two".toList)] ∧
      rewrapped.tagReports = analysis.tagReports ∧
      rewrapped.unfinished.map Unfinished.construct = [.tag "b"] := by
  have analysed : ofBlock .standard ⟨0, "/** @param x one two <b\n */".toList⟩ = .ok
      { offset := 0
        comment := ⟨" @param x one two <b\n ".toList, []⟩
        lines :=
          [⟨⟨3, [' '], "@param x one two <b".toList, ['\n']⟩,
            [⟨.markup, ⟨4, 5⟩, false⟩, ⟨.tagName, ⟨5, 10⟩, false⟩, ⟨.markup, ⟨10, 11⟩, false⟩,
              ⟨.argument, ⟨11, 12⟩, false⟩, ⟨.prose, ⟨12, 21⟩, false⟩,
              ⟨.markup, ⟨21, 23⟩, false⟩]⟩,
          ⟨⟨24, [' '], [], []⟩, []⟩]
        unfinished := [⟨.tag "b", ⟨21, 23⟩⟩]
        passages := [⟨0, 0, .tag 0 "param", "one two".toList, ⟨[⟨13, 7⟩]⟩⟩] } := by
    decide +kernel
  have spaces : ("@param x one two <b".toList.all fun c => !isBlank c || c == ' ') = true := by
    decide +kernel
  obtain ⟨rewrapped, wrapped, passages, reports, constructs⟩ :=
    @rewrapping_keeps_analysis .standard _ _ analysed _ List.mem_cons_self "/** ".toList
      "@param x one".toList "two <b".toList "\n */".toList ['\r', '\n'] (by decide +kernel)
      (by decide +kernel) (by decide +kernel) (by decide +kernel)
      ⟨'@', by decide +kernel, by decide +kernel⟩ ⟨'t', by decide +kernel, by decide +kernel⟩
      (fun c member blank => by simpa [blank] using List.all_eq_true.mp spaces c member)
      (by decide +kernel) (by decide +kernel) (.inr rfl)
  exact ⟨_, rewrapped, analysed, wrapped, passages, reports, constructs⟩

end Analysis

end CommentProse
