import CommentProse.Proofs.Checked.Comment
import CommentProse.Proofs.Checked.Drafting
import CommentProse.Proofs.Comment.Outlines
import CommentProse.Proofs.Placement

/-! # Checked passages

Prose is sliced from the text of the comment and put in its place in the source, by sums with the
offset of the comment; the lines of a section are fetched by their numbers. Each of these operations
is checked here. A comment has the items of its prose in order and before its closer, so they fit as
long as its end does (`Analysis.IsReadingOf.fit_itemsOf`), and each function gives what the
unchecked one gives.
-/

namespace CommentProse

/-- The closer of a comment is wider than all that is added to the offsets of its prose. -/
theorem Analysis.IsReadingOf.fit_itemsOf {settings : Settings} {block : Fragment}
    {analysis : Analysis} (reading : analysis.IsReadingOf settings block) {limit : Nat}
    (room : block.stop ≤ limit) :
    ProseItem.Fit limit (itemsOf settings block.start analysis.lines) where
  ordered := reading.pairwise_bytes block.start
  fits := by
    have behind {line : SpannedLine} (present : line ∈ analysis.lines) :
        block.start + line.line.stop + 1 < limit := by
      have last := DocComment.stop_le_closer (reading.line_mem present)
      have within := (reading.source ▸ analysis.comment.closerFragment_occursIn).stop_le
      have wide : analysis.comment.closerFragment.stop =
          analysis.comment.closerFragment.start + 2 := rfl
      rw [Fragment.stop] at room
      omega
    intro item member
    cases item with
    | text fragment =>
      obtain ⟨line, present, span, here, -, rfl⟩ := exists_span_of_text_mem member
      have spanned := reading.spanned line present
      have inLine : span.range.stop ≤ line.line.stop := (spanned.tiles.pairwise.2 span here).2.2
      obtain ⟨-, -, -, -, range⟩ := spanned.slice_part here
      have stop : (line.textOf span).stop = span.range.stop := congrArg ByteRange.stop range
      have last := behind present
      rw [Fragment.stop] at stop
      change block.start + (line.textOf span).start + width (line.textOf span).text < limit
      omega
    | lineEnd stop =>
      obtain ⟨line, present, rfl⟩ := exists_line_of_lineEnd_mem member
      exact behind present
    | division => trivial

/-- There is room for the passages of a comment. -/
theorem Analysis.IsReadingOf.fits_of_mem_passages {settings : Settings} {block : Fragment}
    {analysis : Analysis} (reading : analysis.IsReadingOf settings block) {limit : Nat}
    (room : block.stop ≤ limit) {passage : Passage} (member : passage ∈ analysis.passages) :
    passage.provenance.Fits limit := by
  rw [reading.passages] at member
  obtain ⟨part, present, -, -, made⟩ := exists_section_of_mem_passagesOf member
  obtain ⟨before, after, lines⟩ := exists_append_of_mem_sectionsOf present
  have inside : itemsOf settings block.start part.2 <:+:
      itemsOf settings block.start analysis.lines := by
    rw [lines, itemsOf_append, itemsOf_append]
    exact ⟨_, _, rfl⟩
  exact Draft.fits_of_mem_passages ((reading.fit_itemsOf room).part inside) made

namespace Checked

variable {limit : Nat} {text : List Char}

/-! ### Items -/

/-- What a span contributes to the prose of a source in which the comment begins at `offset`. -/
def proseItem? (limit : Nat) (text : List Char) (offset : Nat) (span : Span) :
    Option (Option ProseItem) :=
  if span.divides then some (some .division)
  else if span.role = .prose then do
    let part ← fragment? text span.range.start span.range.stop
    let start ← plus? limit offset part.start
    return some (.text ⟨start, part.text⟩)
  else some none

/-- What a line contributes to the prose. -/
def proseItems? (limit : Nat) (settings : Settings) (text : List Char) (offset : Nat)
    (line : SpannedLine) : Option (List ProseItem) := do
  let content ← slice? text ⟨line.line.content.start, line.line.stop⟩
  if allBlank content then return if settings.blankLinesDivide then [.division] else []
  else
    let items ← line.spans.mapM (proseItem? limit text offset)
    let stop ← plus? limit offset line.line.stop
    return items.filterMap id ++ [.lineEnd stop]

/-- The text of a span is there. -/
theorem fragment?_textOf {line : SpannedLine} (occurs : line.line.content.OccursIn text)
    (spanned : line.line.content.IsSpannedBy line.spans) {span : Span}
    (member : span ∈ line.spans) :
    fragment? text span.range.start span.range.stop = some (line.textOf span) := by
  have inside := spanned.slice_occursIn occurs member
  obtain ⟨-, -, -, -, range⟩ := spanned.slice_part member
  exact fragment?_eq inside (congrArg ByteRange.stop range)

/-- The item of a span is there, and is put in its place if it fits. -/
private theorem proseItem?_eq {offset : Nat} {line : SpannedLine} {span : Span}
    (there : fragment? text span.range.start span.range.stop = some (line.textOf span))
    (fits : ∀ item, line.proseItem? offset span = some item → item.Fits limit) :
    proseItem? limit text offset span = some (line.proseItem? offset span) := by
  rw [SpannedLine.proseItem?] at fits ⊢
  rw [proseItem?, there]
  split
  · rfl
  · next joins =>
    split
    · next prose =>
      rw [if_neg joins, if_pos prose] at fits
      have bounded : ((line.textOf span).shift offset).stop < limit := fits _ rfl
      have start : plus? limit offset (line.textOf span).start =
          some ((line.textOf span).shift offset).start :=
        plus?_of_le (Nat.le_of_add_right_le (Nat.le_of_lt bounded))
      rw [Option.bind_eq_bind, Option.bind_some, start]
      rfl
    · rfl

theorem proseItems?_eq {settings : Settings} {offset : Nat} {line : SpannedLine}
    (occurs : line.line.content.OccursIn text)
    (spanned : line.line.content.IsSpannedBy line.spans)
    (fits : ∀ item ∈ line.proseItems settings offset, item.Fits limit) :
    proseItems? limit settings text offset line = some (line.proseItems settings offset) := by
  have contentThere : slice? text ⟨line.line.content.start, line.line.stop⟩ =
      some line.line.text := slice?_of_occursIn occurs
  rw [SpannedLine.proseItems] at fits ⊢
  rw [proseItems?, contentThere, Option.bind_eq_bind, Option.bind_some, CommentLine.isBlank]
  rw [CommentLine.isBlank] at fits
  split
  · rfl
  · next visible =>
    rw [if_neg visible, List.forall_mem_append, List.forall_mem_singleton] at fits
    have items : line.spans.mapM (proseItem? limit text offset) =
        some (line.spans.map (line.proseItem? offset)) :=
      mapM_eq_some_map fun span member =>
        proseItem?_eq (fragment?_textOf occurs spanned member) fun item made =>
          fits.1 item (List.mem_filterMap.mpr ⟨span, member, made⟩)
    have stop : plus? limit offset line.line.stop = some (offset + line.line.stop) :=
      plus?_of_le (Nat.le_of_succ_le (Nat.le_of_lt fits.2))
    rw [items, stop, Option.bind_eq_bind, Option.bind_some, Option.bind_eq_bind, Option.bind_some,
      List.filterMap_map]
    rfl

/-! ### Sections -/

/-- The heads of the tag lines, and the numbers of all lines, by section. -/
def outline? (text : List Char) (lines : List SpannedLine) :
    Option (Outline (Option TagHead × Nat)) := do
  let heads ← lines.mapM fun line => tagHead? text line.line.content.start line.line.stop
  return .ofLines Prod.fst heads.zipIdx

/-- The lines that entries of an outline number. -/
def linesAt? (lines : List SpannedLine) (entries : List (Option TagHead × Nat)) :
    Option (List SpannedLine) :=
  entries.mapM fun entry => lines[entry.2]?

/-- A line with its number as an entry of the outline. -/
def entry (numbered : SpannedLine × Nat) : Option TagHead × Nat :=
  (numbered.1.tagHead?, numbered.2)

/-- The lines with their numbers, by section. -/
def numbered (lines : List SpannedLine) : Outline (SpannedLine × Nat) :=
  .ofLines (fun numbered => numbered.1.tagHead?) lines.zipIdx

theorem outline?_eq {lines : List SpannedLine}
    (occur : ∀ line ∈ lines, line.line.content.OccursIn text) :
    outline? text lines = some ((numbered lines).map id entry) := by
  have heads : lines.mapM (fun line => tagHead? text line.line.content.start line.line.stop) =
      some (lines.map SpannedLine.tagHead?) :=
    mapM_eq_some_map fun line member => tagHead?_eq (occur line member)
  have entries : (lines.map SpannedLine.tagHead?).zipIdx = lines.zipIdx.map entry := by
    rw [List.zipIdx_map]
    rfl
  have arranged : Outline.ofLines Prod.fst (lines.zipIdx.map entry) =
      (numbered lines).map id entry := by
    refine Outline.ofLines_map (fun _ => ?_) lines.zipIdx
    exact (congrFun Option.map_id _).symm
  rw [outline?, heads, Option.bind_eq_bind, Option.bind_some, entries, arranged]
  rfl

/-- Without the numbers it is the outline of the lines. -/
theorem map_numbered (lines : List SpannedLine) :
    (numbered lines).map id Prod.fst = .ofLines SpannedLine.tagHead? lines := by
  have arranged : Outline.ofLines SpannedLine.tagHead? (lines.zipIdx.map Prod.fst) =
      (numbered lines).map id Prod.fst := by
    refine Outline.ofLines_map (fun _ => ?_) lines.zipIdx
    exact (congrFun Option.map_id _).symm
  rw [← arranged, List.zipIdx_map_fst]

/-- Each line is there under its number. -/
theorem linesAt?_eq {lines : List SpannedLine} {part : List (SpannedLine × Nat)}
    (within : part ⊆ lines.zipIdx) :
    linesAt? lines (part.map entry) = some (part.map Prod.fst) := by
  rw [linesAt?, List.mapM_map]
  exact mapM_eq_some_map fun numbered member => List.mk_mem_zipIdx_iff_getElem?.mp (within member)

/-- The texts of the passages of one section. -/
def sectionPassages? (limit : Nat) (settings : Settings) (text : List Char) (offset : Nat)
    (lines : List SpannedLine) (part : Origin × List (Option TagHead × Nat)) :
    Option (List (Origin × List Char × Provenance)) := do
  let among ← linesAt? lines part.2
  let items ← among.mapM (proseItems? limit settings text offset)
  let passages ← passages? limit items.flatten
  return passages.map (part.1, ·)

/-- The passages of the prose in spanned lines. -/
def passagesOf? (limit : Nat) (settings : Settings) (text : List Char) (offset : Nat)
    (lines : List SpannedLine) : Option (List Passage) := do
  let outline ← outline? text lines
  let drafts ← outline.sections.mapM (sectionPassages? limit settings text offset lines)
  return drafts.flatten.zipIdx.map fun ((origin, text, provenance), ordinal) =>
    ⟨offset, ordinal, origin, text, provenance⟩

section Passages

variable {settings : Settings} {offset : Nat} {lines : List SpannedLine}
  (occur : ∀ line ∈ lines, line.line.content.OccursIn text)
  (spanned : ∀ line ∈ lines, line.line.content.IsSpannedBy line.spans)
  (fit : ProseItem.Fit limit (Analysis.itemsOf settings offset lines))

include occur spanned fit

private theorem sectionPassages?_eq {part : Origin × List (SpannedLine × Nat)}
    (present : part ∈ (numbered lines).sections) :
    sectionPassages? limit settings text offset lines (part.1, part.2.map entry) =
      some ((ProseItem.passages (Analysis.itemsOf settings offset (part.2.map Prod.fst))).map
        (part.1, ·)) := by
  obtain ⟨before, after, whole⟩ := Outline.exists_append_of_mem_sections present
  rw [numbered, Outline.lines_ofLines] at whole
  have within : part.2 ⊆ lines.zipIdx := by
    intro numbered member
    rw [whole]
    simp [member]
  have inside : Analysis.itemsOf settings offset (part.2.map Prod.fst) <:+:
      Analysis.itemsOf settings offset lines := by
    have names := congrArg (List.map Prod.fst) whole
    rw [List.zipIdx_map_fst, List.map_append, List.map_append] at names
    rw [names, Analysis.itemsOf_append, Analysis.itemsOf_append]
    exact ⟨_, _, rfl⟩
  have items : (part.2.map Prod.fst).mapM (proseItems? limit settings text offset) =
      some ((part.2.map Prod.fst).map (·.proseItems settings offset)) := by
    refine mapM_eq_some_map fun line member => ?_
    obtain ⟨numbered, among, rfl⟩ := List.mem_map.mp member
    have present := List.fst_mem_of_mem_zipIdx (within among)
    refine proseItems?_eq (occur _ present) (spanned _ present) fun item made => ?_
    exact fit.fits item (List.mem_flatMap.mpr ⟨_, present, made⟩)
  have passages := passages?_eq (fit.part inside)
  rw [Analysis.itemsOf, List.flatMap_def] at passages ⊢
  simp only [sectionPassages?, linesAt?_eq within, items, passages, Option.bind_eq_bind,
    Option.bind_some, Option.pure_def]

theorem passagesOf?_eq :
    passagesOf? limit settings text offset lines =
      some (Analysis.passagesOf settings offset lines) := by
  have entries : ((numbered lines).map id entry).sections = (numbered lines).sections.map
      fun part => (part.1, part.2.map entry) := Outline.sections_map (fun _ => rfl) _ _
  have parts : ((numbered lines).map id Prod.fst).sections = (numbered lines).sections.map
      fun part => (part.1, part.2.map Prod.fst) := Outline.sections_map (fun _ => rfl) _ _
  have drafts : ((numbered lines).map id entry).sections.mapM
      (sectionPassages? limit settings text offset lines) =
      some (((numbered lines).map id Prod.fst).sections.map fun part =>
        (ProseItem.passages (Analysis.itemsOf settings offset part.2)).map (part.1, ·)) := by
    rw [entries, parts, List.mapM_map, List.map_map]
    exact mapM_eq_some_map fun part => sectionPassages?_eq occur spanned fit
  rw [passagesOf?, outline?_eq occur, Option.bind_eq_bind, Option.bind_some, drafts, map_numbered,
    Analysis.passagesOf, List.flatMap_def]
  rfl

end Passages

end Checked

end CommentProse
