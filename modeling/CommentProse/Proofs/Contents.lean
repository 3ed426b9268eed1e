import CommentProse.Proofs.Placement
import CommentProse.Proofs.Prose.Wording
import CommentProse.Proofs.Relocation

/-! # Only the contents of the lines count

`SpannedLine.reading` is what is read in a line without its place: the text and the pieces that its
spans cut it into. Wherever lines with the same texts stand, they have the same readings; and the
tags of a comment and the texts of its passages are functions of the readings of its lines
(`Analysis.tagReports_eq`, `Analysis.map_passagesOf`). So margins, terminators, what follows the
closer and the place of the comment have a part in nothing but offsets
(`Analysis.contents_determine_analysis`).
-/

namespace CommentProse

/-! ### Readings -/

/-- What is read in a line, without its place. -/
structure LineReading where
  text : List Char
  /-- The spans with their texts. -/
  pieces : List Piece
deriving DecidableEq, Repr

def SpannedLine.reading (line : SpannedLine) : LineReading :=
  ⟨line.line.text, line.spans.map fun span => ⟨span.role, span.divides, (line.textOf span).text⟩⟩

/-- What a piece contributes to the prose. -/
def Piece.word? (piece : Piece) : Option Word :=
  if piece.divides then some .division
  else if piece.role = .prose then some (.text piece.text)
  else none

/-- What a line contributes to the prose. -/
def LineReading.words (settings : Settings) (reading : LineReading) : List Word :=
  if allBlank reading.text then if settings.blankLinesDivide then [.division] else []
  else reading.pieces.filterMap Piece.word? ++ [.lineEnd]

theorem SpannedLine.map_word_proseItems (settings : Settings) (offset : Nat) (line : SpannedLine) :
    (line.proseItems settings offset).map ProseItem.word = line.reading.words settings := by
  have item (span : Span) : (line.proseItem? offset span).map ProseItem.word =
      Piece.word? ⟨span.role, span.divides, (line.textOf span).text⟩ := by
    rw [proseItem?, Piece.word?]
    repeat' split
    all_goals rfl
  have blank : allBlank line.reading.text = line.line.isBlank := rfl
  rw [proseItems, LineReading.words, blank]
  split
  · split <;> rfl
  · rw [List.map_append, List.map_filterMap]
    simp only [item, reading, List.filterMap_map]
    rfl

/-- A line that was moved with its spans is read the same way. -/
theorem SpannedLine.MovesTo.reading_eq {move : Nat → Nat} {source target : SpannedLine}
    (moves : source.MovesTo move target)
    (spanned : source.line.content.IsSpannedBy source.spans) : target.reading = source.reading := by
  rw [reading, reading, moves.spans, List.map_map]
  refine congrArg₂ LineReading.mk moves.content.text (List.map_congr_left ?_)
  intro span member
  obtain ⟨lower, positive, upper⟩ := spanned.tiles.pairwise.2 span member
  have size : source.line.content.stop =
    source.line.content.start + width source.line.content.text := rfl
  have place {offset : Nat} (above : source.line.content.start ≤ offset)
      (below : offset ≤ source.line.content.stop) :
      move offset = target.line.content.start + (offset - source.line.content.start) := by
    have found := moves.content.place (offset - source.line.content.start) (by omega)
    rwa [Nat.add_sub_cancel' above] at found
  have start := place lower (by omega)
  have stop := place (lower.trans positive.le) upper
  have text : (target.textOf (span.relocate move)).text = (source.textOf span).text := by
    simp only [textOf, Fragment.slice, Span.relocate, ByteRange.relocate, start, stop,
      moves.content.text, Nat.add_sub_cancel_left, Nat.add_sub_add_left]
    congr 1
    omega
  exact congrArg (Piece.mk span.role span.divides) text

/-! ### Tag lines -/

/-- The fragment without its place. -/
def Fragment.unplaced (fragment : Fragment) : Fragment := ⟨0, fragment.text⟩

namespace TagHead

/-- The parts of a tag line without their places. -/
def unplaced (head : TagHead) : TagHead where
  marker := head.marker.unplaced
  name := head.name.unplaced
  gap := head.gap.unplaced
  argument := head.argument.map Fragment.unplaced
  body := head.body.unplaced

theorem MovesTo.unplaced_eq {move : Nat → Nat} {source target : TagHead}
    (moves : source.MovesTo move target) : target.unplaced = source.unplaced := by
  have argument := congrArg (Option.map (Fragment.mk 0)) moves.argument_text
  rw [Option.map_map, Option.map_map] at argument
  simp only [unplaced, Fragment.unplaced, moves.marker.text, moves.name.text, moves.gap.text,
    moves.body.text, TagHead.mk.injEq, true_and, and_true]
  exact argument

end TagHead

/-- The parts of the line if it is a tag line, without their places. -/
def LineReading.head? (reading : LineReading) : Option TagHead :=
  (TagHead.parse? ⟨0, reading.text⟩).map TagHead.unplaced

theorem SpannedLine.head?_reading (line : SpannedLine) :
    line.reading.head? = line.tagHead?.map TagHead.unplaced := by
  obtain ⟨move, moves⟩ := Fragment.MovesTo.exists_of_text line.line.content ⟨0, line.line.text⟩ rfl
  have heads := TagHead.parse?_movesTo moves
  change (TagHead.parse? ⟨0, line.line.text⟩).map _ = (TagHead.parse? line.line.content).map _
  generalize TagHead.parse? line.line.content = source at heads ⊢
  generalize TagHead.parse? ⟨0, line.line.text⟩ = target at heads ⊢
  cases heads with
  | none => rfl
  | some parts => exact congrArg some parts.unplaced_eq

/-- The outline of readings. -/
def LineReading.outline (readings : List LineReading) : Outline LineReading :=
  .ofLines LineReading.head? readings

theorem SpannedLine.outline_map_reading (lines : List SpannedLine) :
    LineReading.outline (lines.map reading) =
      (Outline.ofLines tagHead? lines).map TagHead.unplaced reading :=
  Outline.ofLines_map head?_reading lines

/-! ### Tags -/

/-- What a block tag says. -/
structure TagReport where
  name : String
  argument : Option (List Char)
  body : String
deriving DecidableEq, Repr

def TagSection.report {α : Type} (content : α → Fragment) (tag : TagSection α) : TagReport :=
  ⟨tag.name, tag.head.argument.map Fragment.text, tag.bodyText content⟩

/-- What the tags say that begin in readings. -/
def LineReading.tagReports (readings : List LineReading) : List TagReport :=
  (outline readings).tags.map (TagSection.report fun reading => ⟨0, reading.text⟩)

/-- The index of the first reading of each tag, and the number of its readings. -/
def LineReading.tagLines (readings : List LineReading) : List (Nat × Nat) :=
  (outline readings).numberedTags.map fun (first, tag) => (first, tag.lines.length)

namespace TagSection

theorem report_map_unplaced (tag : TagSection SpannedLine) :
    (tag.map TagHead.unplaced SpannedLine.reading).report (fun reading => ⟨0, reading.text⟩) =
      tag.report fun line => line.line.content := by
  have argument : (tag.head.argument.map Fragment.unplaced).map Fragment.text =
      tag.head.argument.map Fragment.text := Option.map_map ..
  have body : ((tag.map TagHead.unplaced SpannedLine.reading).body
      (fun reading => ⟨0, reading.text⟩)).map (fun part => trim part.text) =
      (tag.body fun line => line.line.content).map fun part => trim part.text := by
    simp only [TagSection.body, TagSection.map, List.map_map, List.map_cons]
    rfl
  rw [report, report, bodyText, bodyText, body]
  exact congrArg (TagReport.mk tag.name · _) argument

end TagSection

theorem LineReading.tagReports_map_reading (lines : List SpannedLine) :
    tagReports (lines.map SpannedLine.reading) =
      (Outline.ofLines SpannedLine.tagHead? lines).tags.map
        (TagSection.report fun line => line.line.content) := by
  rw [tagReports, SpannedLine.outline_map_reading, Outline.map, List.map_map]
  exact List.map_congr_left fun tag _ => tag.report_map_unplaced

/-- Changing heads and lines one by one leaves the lines of each tag at their indices. -/
theorem Outline.map_length_numberedTags_map {α β : Type} (onHead : TagHead → TagHead)
    (onLine : α → β) (outline : Outline α) :
    ((outline.map onHead onLine).numberedTags.map fun (first, tag) => (first, tag.lines.length)) =
      outline.numberedTags.map fun (first, tag) => (first, tag.lines.length) := by
  rw [numberedTags_map, List.map_map]
  exact List.map_congr_left fun numbered _ => by simp

namespace Analysis

/-- What the block tags of a comment say. -/
def tagReports (analysis : Analysis) : List TagReport :=
  analysis.outline.tags.map (TagSection.report fun line => line.line.content)

/-- The index of the first line of each block tag, and the number of its lines. -/
def tagLines (analysis : Analysis) : List (Nat × Nat) :=
  analysis.outline.numberedTags.map fun (first, tag) => (first, tag.lines.length)

theorem tagReports_eq (analysis : Analysis) :
    analysis.tagReports = LineReading.tagReports (analysis.lines.map SpannedLine.reading) :=
  (LineReading.tagReports_map_reading analysis.lines).symm

theorem tagLines_eq (analysis : Analysis) :
    analysis.tagLines = LineReading.tagLines (analysis.lines.map SpannedLine.reading) := by
  rw [tagLines, LineReading.tagLines, SpannedLine.outline_map_reading,
    Outline.map_length_numberedTags_map]
  rfl

end Analysis

/-! ### Passages -/

/-- The texts of passages in sections of readings, each with its section. -/
def LineReading.wordings (settings : Settings) (sections : List (Origin × List LineReading)) :
    List (Origin × List Char) :=
  sections.flatMap fun part =>
    (Wording.empty.texts (part.2.flatMap (words settings))).map (part.1, ·)

namespace Analysis

theorem map_word_itemsOf (settings : Settings) (offset : Nat) (lines : List SpannedLine) :
    (itemsOf settings offset lines).map ProseItem.word =
      (lines.map SpannedLine.reading).flatMap (LineReading.words settings) := by
  rw [itemsOf, List.map_flatMap, List.flatMap_map]
  simp only [SpannedLine.map_word_proseItems]

/-- The texts of the passages of lines are those of the words that are read in them. -/
theorem map_passagesOf (settings : Settings) (offset : Nat) (lines : List SpannedLine) :
    (passagesOf settings offset lines).map (fun passage => (passage.origin, passage.text)) =
      LineReading.wordings settings
        (LineReading.outline (lines.map SpannedLine.reading)).sections := by
  have names (head : TagHead) : head.unplaced.tagName = head.tagName := rfl
  have drafts : (passagesOf settings offset lines).map (fun passage =>
      (passage.origin, passage.text)) = ((sectionsOf lines).flatMap fun part =>
        (ProseItem.passages (itemsOf settings offset part.2)).map (part.1, ·)).map
          fun draft => (draft.1, draft.2.1) := by
    rw [passagesOf_eq, List.map_map, ← List.zipIdx_map_fst 0 (List.flatMap _ _), List.map_map,
      List.zipIdx_map_fst]
    rfl
  rw [drafts, LineReading.wordings, SpannedLine.outline_map_reading, Outline.sections_map names,
    List.map_flatMap, List.flatMap_map]
  apply List.flatMap_congr
  intro part _
  rw [← map_word_itemsOf settings offset, ← ProseItem.map_fst_passages, List.map_map, List.map_map]
  rfl

/-- Passages are numbered in order, so their texts and sections say it all. -/
theorem map_numbered_passagesOf {settings : Settings} {offset offset' : Nat}
    {lines lines' : List SpannedLine}
    (same : (passagesOf settings offset lines).map (fun passage => (passage.origin, passage.text)) =
      (passagesOf settings offset' lines').map fun passage => (passage.origin, passage.text)) :
    (passagesOf settings offset lines).map
        (fun passage => (passage.origin, passage.ordinal, passage.text)) =
      (passagesOf settings offset' lines').map
        fun passage => (passage.origin, passage.ordinal, passage.text) := by
  have ordinals : (passagesOf settings offset lines).map Passage.ordinal =
      (passagesOf settings offset' lines').map Passage.ordinal := by
    have length := congrArg List.length same
    rw [List.length_map, List.length_map] at length
    rw [map_ordinal_passagesOf, map_ordinal_passagesOf, length]
  have paired := congrArg₂ List.zip same ordinals
  rw [List.zip_map', List.zip_map'] at paired
  have sorted := congrArg (List.map fun key : (Origin × List Char) × Nat =>
    (key.1.1, key.2, key.1.2)) paired
  rw [List.map_map, List.map_map] at sorted
  exact sorted

end Analysis

/-! ### Two comments with the same contents -/

/-- Lines with the same texts, from places on where nothing is open: the readings are the same, and
so is what is given up. -/
theorem SpannedLine.map_reading_ofLines (settings : Settings) (reach reach' : Nat)
    {lines lines' : List CommentLine} {text : List Char}
    (same : lines.map CommentLine.text = lines'.map CommentLine.text)
    (ordered : lines.Pairwise fun line later => line.stop < later.start)
    (ordered' : lines'.Pairwise fun line later => line.stop < later.start)
    (occur : ∀ line ∈ lines, line.content.OccursIn text) :
    (ofLines settings (.idle reach) lines).map reading =
        (ofLines settings (.idle reach') lines').map reading ∧
      ((OpenMarkup.idle reach).readLines settings lines).2.map Unfinished.construct =
        ((OpenMarkup.idle reach').readLines settings lines').2.map Unfinished.construct := by
  obtain ⟨move, unfinished, moves⟩ :=
    exists_forall₂_movesTo settings reach reach' same ordered ordered'
  constructor
  · apply List.ext_getElem
    · rw [List.length_map, List.length_map, moves.length_eq]
    · intro index here there
      rw [List.length_map] at here there
      rw [List.getElem_map, List.getElem_map]
      exact ((moves.get here there).reading_eq
        (isSpannedBy_of_mem_ofLines settings occur (List.getElem_mem here))).symm
  · rw [unfinished, List.map_map]
    rfl

namespace Analysis

/-- The analyses of two comments whose lines have the same texts agree in all but offsets: in the
spans of each line, in the block tags and their lines, in the passages, and in the unfinished
markup. -/
theorem contents_determine_analysis (settings : Settings) {block block' : Fragment}
    {comment comment' : DocComment} (parsed : DocComment.parse block.text = .ok comment)
    (parsed' : DocComment.parse block'.text = .ok comment')
    (same : comment.lines.map CommentLine.text = comment'.lines.map CommentLine.text) :
    ∃ analysis analysis', ofBlock settings block = .ok analysis ∧
      ofBlock settings block' = .ok analysis' ∧
      analysis.lines.map SpannedLine.reading = analysis'.lines.map SpannedLine.reading ∧
      analysis.tagReports = analysis'.tagReports ∧ analysis.tagLines = analysis'.tagLines ∧
      (analysis.passages.map fun passage => (passage.origin, passage.ordinal, passage.text)) =
        (analysis'.passages.map fun passage => (passage.origin, passage.ordinal, passage.text)) ∧
      analysis.unfinished.map Unfinished.construct =
        analysis'.unfinished.map Unfinished.construct := by
  obtain ⟨readings, constructs⟩ := SpannedLine.map_reading_ofLines settings 0 0 same
    comment.pairwise_lines comment'.pairwise_lines fun line => DocComment.content_occursIn
  refine ⟨_, _, ofBlock_eq_ok_iff.mpr ⟨comment, parsed, rfl⟩,
    ofBlock_eq_ok_iff.mpr ⟨comment', parsed', rfl⟩, readings, ?_, ?_, ?_, constructs⟩
  · rw [tagReports_eq, tagReports_eq]
    exact congrArg LineReading.tagReports readings
  · rw [tagLines_eq, tagLines_eq]
    exact congrArg LineReading.tagLines readings
  · apply map_numbered_passagesOf
    rw [map_passagesOf, map_passagesOf]
    exact congrArg (fun readings => LineReading.wordings settings
      (LineReading.outline readings).sections) readings

/-- Another indentation, no stars, carriage returns, a blank behind the closer and another place in
the source. -/
theorem contents_determine_analysis_layout :
    DocComment.parse "/** <b>a\n * @param x y */".toList =
        .ok ⟨" <b>a\n * @param x y ".toList, []⟩ ∧
      DocComment.parse "/**\t<b>a\r\n@param x y */ ".toList =
        .ok ⟨"\t<b>a\r\n@param x y ".toList, [' ']⟩ ∧
      ∃ analysis analysis',
        ofBlock .standard ⟨0, "/** <b>a\n * @param x y */".toList⟩ = .ok analysis ∧
        ofBlock .standard ⟨7, "/**\t<b>a\r\n@param x y */ ".toList⟩ = .ok analysis' ∧
        analysis.tagReports = analysis'.tagReports := by
  have parsed : DocComment.parse "/** <b>a\n * @param x y */".toList =
      .ok ⟨" <b>a\n * @param x y ".toList, []⟩ := by decide +kernel
  have parsed' : DocComment.parse "/**\t<b>a\r\n@param x y */ ".toList =
      .ok ⟨"\t<b>a\r\n@param x y ".toList, [' ']⟩ := by decide +kernel
  obtain ⟨analysis, analysis', analysed, analysed', -, reports, -⟩ :=
    @contents_determine_analysis .standard ⟨0, _⟩ ⟨7, _⟩ _ _ parsed parsed' (by decide +kernel)
  exact ⟨parsed, parsed', analysis, analysis', analysed, analysed', reports⟩

end Analysis

end CommentProse
