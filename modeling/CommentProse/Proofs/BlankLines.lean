import CommentProse.Proofs.BrokenReading
import CommentProse.Proofs.Isolation

/-! # Blank lines between lines of a paragraph

A blank line at which no tag and no reference is open is read without effect, but that markup which
is given up further on may reach up to its end. So leaving such lines out changes nothing in the
spans of the other lines (`SpannedLine.filter_ofLines`), whatever element is open across them. Where
blank lines do not divide prose, they say nothing either, and the comments with and without them
have the same passages, block tags and unfinished markup
(`Analysis.blank_lines_are_transparent`).
-/

namespace CommentProse

/-! ### Reading without a line -/

namespace OpenMarkup

variable {settings : Settings} {line : CommentLine}

/-- The same markup is open, but the last line ends elsewhere. -/
def reaching (reach : Nat) (markup : OpenMarkup) : OpenMarkup := { markup with reach }

theorem unfinished_reaching (edge : Edge) (reach : Nat) (markup : OpenMarkup) :
    (markup.reaching reach).unfinished edge = (markup.unfinished edge).map fun item =>
      ⟨item.construct, ⟨item.range.start, reach⟩⟩ := by
  have tagParts : (markup.reaching reach).unfinishedTag.toList =
        markup.unfinishedTag.toList.map fun item => ⟨item.construct, ⟨item.range.start, reach⟩⟩ := by
    rw [unfinishedTag, unfinishedTag, reaching]
    cases markup.tag <;> rfl
  have referenceParts : (markup.reaching reach).unfinishedReference.toList =
      markup.unfinishedReference.toList.map fun item =>
        ⟨item.construct, ⟨item.range.start, reach⟩⟩ := by
    rw [unfinishedReference, unfinishedReference, reaching]
    cases markup.references.getLast? <;> rfl
  have elementParts : ((markup.reaching reach).unfinishedElement edge).toList =
      (markup.unfinishedElement edge).toList.map fun item =>
        ⟨item.construct, ⟨item.range.start, reach⟩⟩ := by
    rw [unfinishedElement, unfinishedElement, reaching]
    split
    · rfl
    · cases markup.verbatim <;> rfl
  rw [unfinished, unfinished, tagParts, referenceParts, elementParts, List.map_append,
    List.map_append]

theorem openAt_reaching (reach : Nat) (markup : OpenMarkup) (line : CommentLine) :
    (markup.reaching reach).openAt line = (markup.openAt line).reaching reach := by
  rw [openAt, openAt]
  cases line.edge? <;> rfl

/-- Where the line before ended has no part in how a line is read. -/
theorem readContent_reaching (settings : Settings) (reach : Nat) (markup : OpenMarkup)
    (line : CommentLine) :
    (markup.reaching reach).readContent settings line = markup.readContent settings line := by
  have same (markup : OpenMarkup) (reach : Nat) : markup.relocate id reach = markup.reaching reach := by
    obtain ⟨tag, references, verbatim, _⟩ := markup
    have references : references.map (OpenReference.relocate id) = references := List.map_id references
    cases tag <;> cases verbatim <;> simp only [relocate, references] <;> rfl
  have read : (markup.relocate id reach).readContent settings line =
      ((markup.readContent settings line).1.map (Span.relocate id),
        (markup.readContent settings line).2.relocate id
          (markup.readContent settings line).2.reach) :=
    readContent_relocate settings markup ⟨rfl, fun _ _ => rfl⟩
  rw [same, same] at read
  rw [read]
  exact Prod.ext (List.map_id _) rfl

/-- A blank line at which no tag and no reference is open is read without effect. -/
theorem readContent_of_isBlank (settings : Settings) {markup : OpenMarkup}
    (blank : line.isBlank = true) (noTag : markup.tag = .none) (noReference : markup.references = []) :
    markup.unfinishedBefore line = [] ∧
      ((markup.openAt line).readContent settings line).2 = markup.reaching line.stop := by
  have headless := CommentLine.tagHead?_of_isBlank blank
  have edge : line.edge? = some .blankLine := by
    rw [CommentLine.edge?, headless, if_neg (by simp), if_pos blank]
  have stays : markup.closed .blankLine = markup := by
    obtain ⟨tag, references, verbatim, reach⟩ := markup
    cases noTag
    cases noReference
    rfl
  have openAt_eq : markup.openAt line = markup := by
    rw [openAt, edge]
    exact stays
  constructor
  · rw [unfinishedBefore, edge]
    simp [unfinished, unfinishedTag, unfinishedReference, unfinishedElement, noTag, noReference]
  · obtain ⟨pieces, read, -⟩ := read_of_allBlank settings line.content.start noTag noReference blank
    have text : markup.read settings line.content.start line.content.text = (pieces, markup) := read
    rw [openAt_eq, readContent, headless]
    dsimp only
    rw [readLine, text]
    rfl

end OpenMarkup

/-- The offset lies behind the lines before it and ahead of the lines that are left. -/
structure CommentLine.InGap (before lines : List CommentLine) (offset : Nat) : Prop where
  behind : ∀ line ∈ before, line.stop ≤ offset
  ahead : ∀ line ∈ lines, offset ≤ line.start

namespace CommentLine.InGap

variable {before lines : List CommentLine} {line : CommentLine} {offset : Nat}

theorem tail (gap : InGap before (line :: lines) offset) : InGap before lines offset :=
  ⟨gap.behind, (List.forall_mem_cons.mp gap.ahead).2⟩

theorem filter (gap : InGap before lines offset) (kept : CommentLine → Bool) :
    InGap before (lines.filter kept) offset :=
  ⟨gap.behind, fun line member => gap.ahead line (List.mem_of_mem_filter member)⟩

/-- The end of the next line lies in the same gap but for that line. -/
theorem stop (gap : InGap before (line :: lines) offset)
    (apart : ∀ later ∈ lines, line.stop < later.start) : InGap before lines line.stop := by
  refine ⟨fun other member => ?_, fun later member => (apart later member).le⟩
  have upTo := gap.ahead line List.mem_cons_self
  exact (gap.behind other member).trans (upTo.trans (DocComment.start_le_stop line))

/-- The end of the next line lies in the gap behind that line. -/
theorem stop_concat (gap : InGap before (line :: lines) offset)
    (apart : ∀ later ∈ lines, line.stop < later.start) :
    InGap (before ++ [line]) lines line.stop := by
  refine ⟨List.forall_mem_append.mpr ⟨(gap.stop apart).behind, ?_⟩, (gap.stop apart).ahead⟩
  exact List.forall_mem_singleton.mpr (Nat.le_refl _)

end CommentLine.InGap

/-- Unfinished markup that differs at most in where it ends, and none of the lines stands between
the two ends. -/
structure Unfinished.EndsAlike (lines : List CommentLine) (item other : Unfinished) : Prop where
  construct : item.construct = other.construct
  start : item.range.start = other.range.start
  stop : ∀ line ∈ lines, line.stop ≤ item.range.stop ∧ line.stop ≤ other.range.stop ∨
    item.range.stop ≤ line.start ∧ other.range.stop ≤ line.start

namespace OpenMarkup

open CommentLine (InGap)

variable {settings : Settings} {kept : CommentLine → Bool} {before lines : List CommentLine}

theorem forall₂_endsAlike_unfinished {markup : OpenMarkup} {reach : Nat}
    (gap : InGap before lines markup.reach) (gap' : InGap before lines reach) (edge : Edge) :
    List.Forall₂ (Unfinished.EndsAlike (before ++ lines)) (markup.unfinished edge)
      ((markup.reaching reach).unfinished edge) := by
  have stops := unfinished_reaching edge markup.reach markup
  rw [unfinished_reaching]
  change markup.unfinished edge = _ at stops
  rw [stops, List.map_map, List.forall₂_map_left_iff, List.forall₂_map_right_iff,
    List.forall₂_same]
  refine fun item _ => ⟨rfl, rfl, fun line member => ?_⟩
  exact (List.mem_append.mp member).imp
    (fun earlier => ⟨gap.behind line earlier, gap'.behind line earlier⟩)
    fun later => ⟨gap.ahead line later, gap'.ahead line later⟩

/-- Blank lines at which no tag and no reference is open can be left out: the others are read to the
same spans, and the same markup is given up. -/
theorem readLines_filter (settings : Settings) (before : List CommentLine) (markup : OpenMarkup)
    (reach : Nat) (gap : InGap before lines markup.reach) (gap' : InGap before lines reach)
    (ordered : lines.Pairwise fun line later => line.stop < later.start)
    (removed : ∀ front line rest, lines = front ++ line :: rest → kept line = false →
      line.isBlank = true ∧ (markup.behind settings front).tag = .none ∧
        (markup.behind settings front).references = []) :
    (lines.zip (markup.readLines settings lines).1).filter (fun pair => kept pair.1) =
        (lines.filter kept).zip
          ((markup.reaching reach).readLines settings (lines.filter kept)).1 ∧
      List.Forall₂ (Unfinished.EndsAlike (before ++ lines.filter kept))
        (markup.readLines settings lines).2
        ((markup.reaching reach).readLines settings (lines.filter kept)).2 := by
  induction lines generalizing before markup reach with
  | nil => exact ⟨rfl, forall₂_endsAlike_unfinished gap gap' .commentEnd⟩
  | cons line lines ih =>
    obtain ⟨apart, rest⟩ := List.pairwise_cons.mp ordered
    have others (front : List CommentLine) (other : CommentLine) (back : List CommentLine)
        (cut : lines = front ++ other :: back) := removed (line :: front) other back (by rw [cut]; rfl)
    have reached := reach_readContent settings (markup.openAt line) line
    cases keeps : kept line with
    | false =>
      obtain ⟨blank, noTag, noReference⟩ : line.isBlank = true ∧ markup.tag = .none ∧
          markup.references = [] := removed [] line lines rfl keeps
      obtain ⟨nothing, next⟩ := readContent_of_isBlank settings blank noTag noReference
      obtain ⟨spans, items⟩ := ih before (markup.reaching line.stop) reach (gap.stop apart)
        gap'.tail rest (next ▸ others)
      rw [List.filter_cons_of_neg (by simp [keeps]), readLines]
      dsimp only
      rw [nothing, next]
      refine ⟨?_, items⟩
      rw [List.zip_cons_cons, List.filter_cons_of_neg (by simp [keeps])]
      exact spans
    | true =>
      have kept_lines := List.filter_cons_of_pos (l := lines) keeps
      obtain ⟨spans, items⟩ := ih (before ++ [line])
        ((markup.openAt line).readContent settings line).2 line.stop
        (reached ▸ gap.stop_concat apart) (gap.stop_concat apart) rest others
      have same : (((markup.openAt line).readContent settings line).2).reaching line.stop =
          ((markup.openAt line).readContent settings line).2 := by
        rw [← reached]
        rfl
      rw [same] at spans items
      rw [kept_lines, readLines, readLines, openAt_reaching, readContent_reaching]
      constructor
      · rw [List.zip_cons_cons, List.filter_cons_of_pos (by exact keeps), spans]
        rfl
      · refine List.rel_append ?_ ?_
        · rw [unfinishedBefore, unfinishedBefore]
          cases line.edge? with
          | none => exact .nil
          | some edge =>
            rw [← kept_lines]
            exact forall₂_endsAlike_unfinished (gap.filter kept) (gap'.filter kept) edge
        · rw [List.append_assoc] at items
          exact items

end OpenMarkup

/-! ### Spans of the other lines -/

theorem Span.relabel_congr {range other : ByteRange} {span : Span}
    (start : range.start = other.start)
    (stop : span.range.stop ≤ range.stop ∧ span.range.stop ≤ other.stop ∨
      range.stop ≤ span.range.start ∧ other.stop ≤ span.range.start) :
    relabel range span = relabel other span := by
  rcases stop with ⟨upTo, upToOther⟩ | ⟨behind, behindOther⟩
  · rw [relabel, relabel, start, Nat.min_eq_left upTo, Nat.min_eq_left upToOther]
  · rw [relabel_of_stop_le behind, relabel_of_stop_le behindOther]

/-- It makes no difference to the spans of a line where unfinished markup ends before or behind it. -/
theorem Unfinished.relabel_congr {lines : List CommentLine} {items others : List Unfinished}
    (alike : List.Forall₂ (EndsAlike lines) items others) {line : CommentLine}
    (member : line ∈ lines) {spans : List Span}
    (inside : ∀ span ∈ spans, line.start ≤ span.range.start ∧ span.range.stop ≤ line.stop) :
    relabel items spans = relabel others spans := by
  induction alike generalizing spans with
  | nil => rfl
  | @cons item other items others here _ ih =>
    have same : Span.relabelAll item.range spans = Span.relabelAll other.range spans := by
      apply List.flatMap_congr
      intro span among
      obtain ⟨lower, upper⟩ := inside span among
      exact Span.relabel_congr here.start ((here.stop line member).imp
        (fun stops => ⟨upper.trans stops.1, upper.trans stops.2⟩)
        fun stops => ⟨stops.1.trans lower, stops.2.trans lower⟩)
    change relabel items (Span.relabelAll item.range spans) =
      relabel others (Span.relabelAll other.range spans)
    rw [same]
    apply ih
    intro span among
    obtain ⟨source, present, part⟩ := List.mem_flatMap.mp among
    obtain ⟨lower, upper, -⟩ := Span.mem_relabel part
    exact ⟨(inside source present).1.trans lower, upper.trans (inside source present).2⟩

namespace SpannedLine

variable {settings : Settings} {kept : CommentLine → Bool} {lines : List CommentLine}

/-- Without blank lines at which no tag and no reference is open, the other lines have the same
spans, and the same markup is unfinished. -/
theorem filter_ofLines (settings : Settings)
    (ordered : lines.Pairwise fun line later => line.stop < later.start)
    (removed : ∀ front line rest, lines = front ++ line :: rest → kept line = false →
      line.isBlank = true ∧ (OpenMarkup.none.behind settings front).tag = none ∧
        (OpenMarkup.none.behind settings front).references = []) :
    (ofLines settings .none lines).filter (fun line => kept line.line) =
        ofLines settings .none (lines.filter kept) ∧
      (OpenMarkup.none.readLines settings lines).2.map Unfinished.construct =
        (OpenMarkup.none.readLines settings (lines.filter kept)).2.map Unfinished.construct := by
  have gap : CommentLine.InGap [] lines 0 := ⟨by simp, fun line _ => Nat.zero_le _⟩
  obtain ⟨spans, items⟩ := OpenMarkup.readLines_filter settings [] .none 0 gap gap ordered removed
  have start : OpenMarkup.none.reaching 0 = .none := rfl
  rw [start] at spans items
  have spanned := OpenMarkup.forall₂_readLines settings .none (lines.filter kept)
  constructor
  · have pairs : (fun line : SpannedLine => kept line.line) ∘
        (fun pair : CommentLine × List Span => (⟨pair.1, Unfinished.relabel
          (OpenMarkup.none.readLines settings lines).2 pair.2⟩ : SpannedLine)) =
        fun pair => kept pair.1 := rfl
    rw [ofLines, ofLines, List.filter_map, pairs, spans]
    apply List.map_congr_left
    rintro ⟨line, spans⟩ paired
    obtain ⟨tiled, -⟩ := (List.forall₂_iff_zip.mp spanned).2 paired
    have inside : ∀ span ∈ spans, line.start ≤ span.range.start ∧ span.range.stop ≤ line.stop := by
      intro span among
      obtain ⟨lower, -, upper⟩ := tiled.tiles.pairwise.2 span among
      exact ⟨(Nat.le_add_right _ _).trans lower, upper⟩
    dsimp only
    rw [Unfinished.relabel_congr items (List.of_mem_zip paired).1 inside]
  · rw [← List.forall₂_eq_eq_eq, List.forall₂_map_left_iff, List.forall₂_map_right_iff]
    exact items.imp fun _ _ alike => alike.construct

end SpannedLine

/-! ### What blank lines say -/

/-- A blank text says nothing. -/
theorem freeText_of_allBlank {text : List Char} (blank : allBlank text = true)
    (front behind : List (List Char)) :
    freeText (front ++ text :: behind) = freeText (front ++ behind) := by
  have silent : said? text = none := by simp [said?, trim_eq_nil, blank]
  rw [freeText, freeText, List.filterMap_append, List.filterMap_append,
    List.filterMap_cons_none silent]

/-- Where blank lines do not divide prose, an outline says the same without one. -/
theorem Outline.Alike.cons_of_isBlank {settings : Settings}
    (joins : settings.blankLinesDivide = false) {outline outline' : Outline LineReading}
    (alike : outline.Alike settings outline') {line : SpannedLine}
    (blank : line.line.isBlank = true) :
    (Outline.cons LineReading.head? line.reading outline).Alike settings outline' := by
  have headless : line.reading.head? = none := by
    rw [line.head?_reading, SpannedLine.tagHead?, CommentLine.tagHead?_of_isBlank blank]
    rfl
  have text : allBlank line.reading.text = true := blank
  have silent : line.reading.words settings = [] := by
    rw [LineReading.words, if_pos text, joins]
    rfl
  rw [Outline.cons, headless]
  refine ⟨⟨?_, ?_⟩, alike.tags⟩
  · intro wording rested
    rw [List.flatMap_cons, silent]
    exact alike.description.words wording rested
  · intro front
    rw [List.map_cons, freeText_of_allBlank text]
    exact alike.description.freeText front

theorem LineReading.outline_filter {settings : Settings}
    (joins : settings.blankLinesDivide = false) {kept : CommentLine → Bool}
    {lines : List SpannedLine} (blank : ∀ line ∈ lines, kept line.line = false →
      line.line.isBlank = true) :
    (outline (lines.map SpannedLine.reading)).Alike settings
      (outline ((lines.filter fun line => kept line.line).map SpannedLine.reading)) := by
  induction lines with
  | nil => exact ⟨.refl settings [], rfl⟩
  | cons line lines ih =>
    obtain ⟨here, later⟩ := List.forall_mem_cons.mp blank
    cases keeps : kept line.line with
    | true =>
      rw [List.filter_cons_of_pos (by exact keeps)]
      exact (ih later).cons line.reading
    | false =>
      rw [List.filter_cons_of_neg (by simp [keeps])]
      exact (ih later).cons_of_isBlank joins (here keeps)

/-! ### Two comments -/

namespace Analysis

/-- Where blank lines do not divide prose: of two comments of which the second has the contents of
the first, less some blank lines at which no tag and no reference is open, both can be analysed,
and they have the same block tags, passages and unfinished markup. -/
theorem blank_lines_are_transparent {settings : Settings}
    (joins : settings.blankLinesDivide = false) {block block' : Fragment}
    {comment comment' : DocComment} (parsed : DocComment.parse block.text = .ok comment)
    (parsed' : DocComment.parse block'.text = .ok comment') {kept : CommentLine → Bool}
    (same : comment'.lines.map CommentLine.text =
      (comment.lines.filter kept).map CommentLine.text)
    (removed : ∀ front line rest, comment.lines = front ++ line :: rest → kept line = false →
      line.isBlank = true ∧ (OpenMarkup.none.behind settings front).tag = none ∧
        (OpenMarkup.none.behind settings front).references = []) :
    ∃ analysis analysis', ofBlock settings block = .ok analysis ∧
      ofBlock settings block' = .ok analysis' ∧ analysis.tagReports = analysis'.tagReports ∧
      (analysis.passages.map fun passage => (passage.origin, passage.ordinal, passage.text)) =
        (analysis'.passages.map fun passage => (passage.origin, passage.ordinal, passage.text)) ∧
      analysis.unfinished.map Unfinished.construct =
        analysis'.unfinished.map Unfinished.construct := by
  obtain ⟨lines, constructs⟩ :=
    SpannedLine.filter_ofLines settings comment.pairwise_lines removed
  obtain ⟨readings, constructs'⟩ := SpannedLine.map_reading_ofLines settings 0 0 same.symm
    (comment.pairwise_lines.filter kept) comment'.pairwise_lines
    fun line member => DocComment.content_occursIn (List.mem_of_mem_filter member)
  have blank : ∀ line ∈ SpannedLine.ofLines settings .none comment.lines,
      kept line.line = false → line.line.isBlank = true := by
    intro line member
    have among : line.line ∈ comment.lines := by
      rw [← SpannedLine.map_line_ofLines settings .none comment.lines]
      exact List.mem_map_of_mem member
    obtain ⟨front, rest, cut⟩ := List.append_of_mem among
    exact fun drops => (removed front line.line rest cut drops).1
  have alike := LineReading.outline_filter joins blank
  rw [lines] at alike
  change (LineReading.outline _).Alike settings (LineReading.outline
    ((SpannedLine.ofLines settings (.idle 0) (comment.lines.filter kept)).map _)) at alike
  rw [readings] at alike
  refine ⟨_, _, ofBlock_eq_ok_iff.mpr ⟨comment, parsed, rfl⟩,
    ofBlock_eq_ok_iff.mpr ⟨comment', parsed', rfl⟩, ?_, ?_, constructs.trans constructs'⟩
  · rw [tagReports_eq, tagReports_eq]
    exact alike.reports_eq
  · apply map_numbered_passagesOf
    rw [map_passagesOf, map_passagesOf]
    exact alike.wordings_eq

/-- Blank lines in an element, between paragraphs and behind an element that is not closed. -/
theorem blank_lines_are_transparent_in_elements :
    let settings := { Settings.standard with blankLinesDivide := false }
    let block : Fragment := ⟨0, "/** a <pre>b\n\nc</pre> d\n\n@x e <code>f\n*/".toList⟩
    let block' : Fragment := ⟨5, "/** a <pre>b\nc</pre> d\n@x e <code>f*/".toList⟩
    settings.blankLinesDivide = false ∧
      ∃ analysis analysis', ofBlock settings block = .ok analysis ∧
        ofBlock settings block' = .ok analysis' ∧ analysis.tagReports = analysis'.tagReports ∧
        (analysis.passages.map fun passage =>
          (passage.origin, passage.ordinal, passage.text)) =
          (analysis'.passages.map fun passage =>
            (passage.origin, passage.ordinal, passage.text)) ∧
        analysis.unfinished.map Unfinished.construct =
          analysis'.unfinished.map Unfinished.construct := by
  intro settings block block'
  let comment : DocComment := ⟨" a <pre>b\n\nc</pre> d\n\n@x e <code>f\n".toList, []⟩
  let comment' : DocComment := ⟨" a <pre>b\nc</pre> d\n@x e <code>f".toList, []⟩
  have parsed : DocComment.parse block.text = .ok comment := by decide +kernel
  have parsed' : DocComment.parse block'.text = .ok comment' := by decide +kernel
  have same : comment'.lines.map CommentLine.text =
      (comment.lines.filter (!·.isBlank)).map CommentLine.text := by decide +kernel
  have closed : ∀ count < comment.lines.length,
      (OpenMarkup.none.behind settings (comment.lines.take count)).tag = none ∧
        (OpenMarkup.none.behind settings (comment.lines.take count)).references = [] := by
    decide +kernel
  refine ⟨rfl, blank_lines_are_transparent rfl parsed parsed' same ?_⟩
  intro front line rest cut drops
  have read : comment.lines.take front.length = front := by rw [cut, List.take_left]
  have upTo : front.length < comment.lines.length := by simp [cut]
  rw [← read]
  exact ⟨by simpa using drops, closed front.length upTo⟩

end Analysis

end CommentProse
