import CommentProse.Proofs.Checked.Prose
import CommentProse.Proofs.Checked.Reading
import CommentProse.SyntaxTree
import CommentProse.Report.Issue

/-! # Checked trees and issues

What is made of an analysis: the tokens of its tree are sliced from the text of the comment, a line
break between the content of a line and the start of the next line, and the places of its issues are
looked up in a table of the lines of the source. Ranges of issues are put in their place by sums
with the offset of the comment, and are ordered when they are made; lines and columns are counted
from one. Each function gives what the unchecked one gives.
-/

namespace CommentProse

namespace Checked

variable {text : List Char}

/-! ### Trees -/

/-- The text from `start` to `stop` as a token, unless it is empty. -/
def token? (text : List Char) (kind : TokenKind) (start stop : Nat) : Option (List SyntaxTree) :=
  if stop ≤ start then some []
  else do
    let source ← fragment? text start stop
    return [.token kind source]

theorem token?_eq {start stop : Nat} {part : List Char} (kind : TokenKind)
    (occurs : (Fragment.mk start part).OccursIn text) (size : start + width part = stop) :
    token? text kind start stop = some (SyntaxTree.ofFragment kind ⟨start, part⟩) := by
  rw [token?, SyntaxTree.ofFragment, Fragment.isEmpty]
  cases part with
  | nil => rw [if_pos (by rw [← size]; exact Nat.le_refl _)]; rfl
  | cons c part =>
    have positive := c.utf8Size_pos
    rw [width_cons] at size
    rw [if_neg (by omega), fragment?_eq occurs size]
    rfl

/-- The line break behind a line, if another line follows it. -/
def lineBreak? (text : List Char) (line : CommentLine) :
    Option CommentLine → Option (List SyntaxTree)
  | some next => token? text .lineBreak line.stop next.start
  | none => some []

/-- The tree of the line with this number. -/
def lineTree? (text : List Char) (lines : List SpannedLine) (number : Nat) : Option SyntaxTree := do
  let line ← lines[number]?
  let margin ← token? text .margin line.line.start line.line.content.start
  let content ← line.spans.mapM fun span =>
    token? text (.span span.role) span.range.start span.range.stop
  let lineBreak ← lineBreak? text line.line (lines[number + 1]?.map SpannedLine.line)
  return .node .line (margin ++ content.flatten ++ lineBreak)

/-- The trees of the lines that entries of an outline number. -/
def lineTrees? (text : List Char) (lines : List SpannedLine)
    (entries : List (Option TagHead × Nat)) : Option (List SyntaxTree) :=
  entries.mapM fun entry => lineTree? text lines entry.2

/-- The tree of a block tag. -/
def tagTree? (text : List Char) (lines : List SpannedLine)
    (tag : TagSection (Option TagHead × Nat)) : Option SyntaxTree := do
  let children ← lineTrees? text lines tag.lines
  return .node .blockTag children

/-- The tree of a comment. -/
def tree? (text : List Char) (analysis : Analysis) : Option SyntaxTree := do
  let outline ← outline? text analysis.lines
  let close := analysis.comment.closerFragment
  let opening ← token? text .opener 0 (width opener)
  let description ← lineTrees? text analysis.lines outline.description
  let tags ← outline.tags.mapM (tagTree? text analysis.lines)
  let closing ← token? text .closer close.start close.stop
  let trailing ← token? text .trailing close.stop (width text)
  return .node .comment (opening ++
    (if outline.description.isEmpty then [] else [.node .description description]) ++ tags ++
      closing ++ trailing)

/-- What ends the last line is no line break. -/
private theorem lineBreak_of_last {comment : DocComment} {before : List CommentLine}
    {line : CommentLine} (split : comment.lines = before ++ [line]) :
    SyntaxTree.lineBreak line = [] := by
  obtain ⟨lines, last, whole, -, terminator, -⟩ := comment.lines_eq_append
  obtain ⟨-, same⟩ := List.append_inj' (split.symm.trans whole) rfl
  obtain rfl := List.singleton_injective same
  rw [SyntaxTree.lineBreak, if_neg]
  rw [terminator]
  split <;> decide

/-- Every other line ends with a line break, and the next line begins behind it. -/
private theorem lineBreak_of_next {comment : DocComment} {before after : List CommentLine}
    {line next : CommentLine} (split : comment.lines = before ++ line :: next :: after) :
    SyntaxTree.lineBreak line = SyntaxTree.ofFragment .lineBreak ⟨line.stop, line.terminator⟩ ∧
      line.stop + width line.terminator = next.start := by
  obtain ⟨lines, last, whole, feeds, -, -⟩ := comment.lines_eq_append
  have adjacent := comment.adjacent_lines
  rw [split, List.map_append] at adjacent
  obtain ⟨-, -, -, follows, -⟩ := adjacent.exists_middle
  have earlier : line ∈ lines := by
    have front := congrArg List.dropLast (split.symm.trans whole)
    rw [List.dropLast_concat, List.dropLast_append_of_ne_nil (by simp)] at front
    rw [← front]
    simp
  constructor
  · rw [SyntaxTree.lineBreak, SyntaxTree.ofFragment]
    rcases feeds line earlier with feed | feed <;> rw [feed] <;> rfl
  · change next.start = line.fragment.stop at follows
    rw [follows]
    simp only [CommentLine.fragment, CommentLine.source, CommentLine.stop, CommentLine.content,
      Fragment.stop, width_append]
    omega

/-- A line break stands behind every line but the last. -/
private theorem lineBreak?_eq {comment : DocComment} {before after : List CommentLine}
    {line : CommentLine} (source : comment.source = text)
    (split : comment.lines = before ++ line :: after) :
    lineBreak? text line after.head? = some (SyntaxTree.lineBreak line) := by
  cases after with
  | nil => rw [lineBreak_of_last split]; rfl
  | cons next after =>
    obtain ⟨broken, follows⟩ := lineBreak_of_next split
    have member : line ∈ comment.lines := by simp [split]
    have occurs := CommentLine.terminator_occursIn (DocComment.fragment_occursIn member)
    rw [source] at occurs
    rw [broken]
    exact token?_eq .lineBreak occurs follows

variable {settings : Settings} {block : Fragment} {analysis : Analysis}

theorem lineTree?_eq (reading : analysis.IsReadingOf settings block) {number : Nat}
    {line : SpannedLine} (there : analysis.lines[number]? = some line) :
    lineTree? block.text analysis.lines number = some (SyntaxTree.ofLine line) := by
  obtain ⟨bound, found⟩ := List.getElem?_eq_some_iff.mp there
  have member : line ∈ analysis.lines := List.mem_of_getElem? there
  have occurs := reading.fragment_occursIn member
  have spanned := reading.spanned line member
  have content := CommentLine.content_occursIn occurs
  have margin := token?_eq .margin (CommentLine.margin_occursIn occurs) rfl
  have spans : line.spans.mapM (fun span =>
      token? block.text (.span span.role) span.range.start span.range.stop) =
      some (line.spans.map fun span =>
        SyntaxTree.ofFragment (.span span.role) (line.textOf span)) := by
    refine mapM_eq_some_map fun span among => ?_
    obtain ⟨-, -, -, -, range⟩ := spanned.slice_part among
    exact token?_eq _ (spanned.slice_occursIn content among) (congrArg ByteRange.stop range)
  have split : analysis.comment.lines = (analysis.lines.take number).map SpannedLine.line ++
      line.line :: (analysis.lines.drop (number + 1)).map SpannedLine.line := by
    rw [← reading.lines, ← List.map_cons, ← List.map_append, ← found, List.getElem_cons_drop,
      List.take_append_drop]
  have broken := lineBreak?_eq reading.source split
  rw [List.head?_map, List.head?_drop] at broken
  change token? block.text .margin line.line.start line.line.content.start = _ at margin
  simp only [lineTree?, there, margin, spans, broken, Option.bind_eq_bind, Option.bind_some,
    Option.pure_def, SyntaxTree.ofLine, List.flatMap_def]
  rfl

/-- The trees of lines that stand under their numbers. -/
private theorem lineTrees?_eq (reading : analysis.IsReadingOf settings block)
    {part : List (SpannedLine × Nat)} (within : part ⊆ analysis.lines.zipIdx) :
    lineTrees? block.text analysis.lines (part.map entry) =
      some ((part.map Prod.fst).map SyntaxTree.ofLine) := by
  rw [lineTrees?, List.mapM_map, List.map_map]
  exact mapM_eq_some_map fun numbered member =>
    lineTree?_eq reading (List.mk_mem_zipIdx_iff_getElem?.mp (within member))

theorem tree?_eq (reading : analysis.IsReadingOf settings block) :
    tree? block.text analysis = some (SyntaxTree.ofAnalysis analysis) := by
  have description : lineTrees? block.text analysis.lines
      ((numbered analysis.lines).description.map entry) = _ := lineTrees?_eq reading (by
    rw [← Outline.lines_ofLines (fun numbered => numbered.1.tagHead?) analysis.lines.zipIdx]
    exact List.subset_append_left _ _)
  have tags : ((numbered analysis.lines).tags.map (TagSection.map id entry)).mapM
      (tagTree? block.text analysis.lines) =
      some (((numbered analysis.lines).tags.map (TagSection.map id Prod.fst)).map fun tag =>
        .node .blockTag (tag.lines.map SyntaxTree.ofLine)) := by
    rw [List.mapM_map, List.map_map]
    refine mapM_eq_some_map fun tag member => ?_
    rw [Function.comp_apply, tagTree?, TagSection.lines_map,
      lineTrees?_eq reading (Outline.mem_of_mem_tags member)]
    rfl
  have opening : token? block.text .opener 0 (width opener) =
      some (SyntaxTree.ofFragment .opener DocComment.openerFragment) :=
    token?_eq _ (reading.source ▸ analysis.comment.openerFragment_occursIn) rfl
  have closing : token? block.text .closer analysis.comment.closerFragment.start
      analysis.comment.closerFragment.stop =
      some (SyntaxTree.ofFragment .closer analysis.comment.closerFragment) :=
    token?_eq _ (reading.source ▸ analysis.comment.closerFragment_occursIn) rfl
  have trailing : token? block.text .trailing analysis.comment.closerFragment.stop
      (width block.text) =
      some (SyntaxTree.ofFragment .trailing analysis.comment.trailingFragment) := by
    rw [← reading.source, ← DocComment.trailingFragment_stop]
    exact token?_eq _ analysis.comment.trailingFragment_occursIn rfl
  simp only [tree?, outline?_eq fun line => reading.content_occursIn, Outline.map, description,
    tags, opening, closing, trailing, Option.bind_eq_bind, Option.bind_some, Option.pure_def]
  rw [SyntaxTree.ofAnalysis, Analysis.outline, ← map_numbered, SyntaxTree.ofDescription]
  simp only [Outline.map, List.isEmpty_map]

/-! ### Issues -/

/-- The line and column of an offset: the line is the last that begins at or before it. -/
def position? (table : LineTable) (offset : Nat) : Option Position := do
  let place := min offset table.size
  let reached := (table.starts.takeWhile (· ≤ place)).length
  let line ← minus? reached 1
  let start ← table.starts[line]?
  let column ← minus? place start
  return ⟨line + 1, column + 1⟩

/-- Where the first number satisfies `p`, the last of those before which all do is there. -/
private theorem exists_last_takeWhile {p : Nat → Bool} {first : Nat} {numbers : List Nat}
    (begins : numbers.head? = some first) (holds : p first = true) :
    ∃ earlier last, numbers.takeWhile p = earlier ++ [last] ∧
      numbers[earlier.length]? = some last ∧ p last = true := by
  have whole := List.takeWhile_append_dropWhile (p := p) (l := numbers)
  rcases List.eq_nil_or_concat' (numbers.takeWhile p) with none | ⟨earlier, last, split⟩
  · obtain ⟨rest, rfl⟩ := List.head?_eq_some_iff.mp begins
    rw [List.takeWhile_cons_of_pos holds] at none
    cases none
  · refine ⟨earlier, last, split, ?_, List.mem_takeWhile_imp (l := numbers) (by simp [split])⟩
    rw [← whole, split]
    simp

theorem position?_eq {table : LineTable} (begins : table.starts.head? = some 0) (offset : Nat) :
    position? table offset = some (table.position offset) := by
  obtain ⟨earlier, last, reached, there, before⟩ := exists_last_takeWhile
    (p := (· ≤ min offset table.size)) begins (decide_eq_true (Nat.zero_le _))
  simp only [position?, LineTable.position, reached, List.length_append, List.length_singleton,
    minus?_add_right, there, minus?_of_le (of_decide_eq_true before), List.getLastD_concat,
    Option.bind_eq_bind, Option.bind_some, Option.pure_def]

/-- A table has at most one line more than the text has bytes. -/
private theorem length_startsAfter_le (offset : Nat) (text : List Char) :
    (LineTable.startsAfter offset text).length ≤ width text := by
  induction text generalizing offset with
  | nil => exact Nat.le_refl _
  | cons c text ih =>
    have later := ih (offset + c.utf8Size)
    have positive := c.utf8Size_pos
    rw [LineTable.startsAfter, width_cons]
    split
    · rw [List.length_cons]
      omega
    · omega

/-- Lines and columns are at most one more than the width of the text. -/
theorem position_le (text : List Char) (offset : Nat) :
    ((LineTable.ofText text).position offset).line ≤ width text + 1 ∧
      ((LineTable.ofText text).position offset).column ≤ width text + 1 := by
  have lines : (LineTable.ofText text).starts.length ≤ width text + 1 :=
    Nat.succ_le_succ (length_startsAfter_le 0 text)
  have reached := (List.takeWhile_sublist
    (l := (LineTable.ofText text).starts) (· ≤ min offset (width text))).length_le
  refine ⟨reached.trans lines, Nat.succ_le_succ ?_⟩
  exact (Nat.sub_le _ _).trans (Nat.min_le_right _ _)

/-- The range from `start` to `stop`, if these are in order. -/
def ordered? (start stop : Nat) : Option ByteRange :=
  if start ≤ stop then some ⟨start, stop⟩ else none

/-- An issue at a range of the source. -/
def place? (limit : Nat) (table : LineTable) (severity : Severity) (code message : String)
    (range : ByteRange) : Option Issue := do
  let found ← position? table range.start
  let line ← within? limit found.line
  let column ← within? limit found.column
  let range ← ordered? (min range.start Issue.maxOffset) (min range.stop Issue.maxOffset)
  return { severity, code, message, position := ⟨line, column⟩, range }

/-- The issues of a comment that was found in a source. -/
def issues? (limit : Nat) (table : LineTable) (found : FoundComment) : Option (List Issue) :=
  match found.outcome with
  | .ok analysis => analysis.unfinished.mapM fun item => do
    let start ← plus? limit analysis.offset item.range.start
    let stop ← plus? limit analysis.offset item.range.stop
    place? limit table .warning item.construct.code item.construct.message ⟨start, stop⟩
  | .error fault => do
    let place ← plus? limit found.block.start fault.offset
    let issue ← place? limit table .error fault.code fault.message ⟨place, place⟩
    return [issue]

section Issues

variable {limit : Nat} {source : List Char} (counted : width source < limit)

include counted

theorem place?_eq (severity : Severity) (code message : String) {range : ByteRange}
    (order : range.start ≤ range.stop) :
    place? limit (.ofText source) severity code message range =
      some (.place (.ofText source) severity code message range) := by
  obtain ⟨line, column⟩ := position_le source range.start
  rw [place?, position?_eq rfl, ordered?, if_pos (by omega), Option.bind_eq_bind, Option.bind_some,
    within?_of_le (line.trans counted), within?_of_le (column.trans counted)]
  rfl

theorem issues?_eq {found : FoundComment}
    (covers : ∀ analysis, found.outcome = .ok analysis → ∀ item ∈ analysis.unfinished,
      item.range.start ≤ item.range.stop ∧ analysis.offset + item.range.stop ≤ limit)
    (points : ∀ fault, found.outcome = .error fault → found.block.start + fault.offset ≤ limit) :
    issues? limit (.ofText source) found = some (found.issues (.ofText source)) := by
  rw [issues?, FoundComment.issues]
  cases outcome : found.outcome with
  | error fault =>
    dsimp only
    rw [plus?_of_le (points fault outcome), Option.bind_eq_bind, Option.bind_some,
      place?_eq counted _ _ _ (Nat.le_refl _)]
    rfl
  | ok analysis =>
    refine mapM_eq_some_map fun item member => ?_
    obtain ⟨order, small⟩ := covers analysis outcome item member
    rw [plus?_of_le (by omega), plus?_of_le small, Option.bind_eq_bind, Option.bind_some,
      Option.bind_some]
    exact place?_eq counted _ _ _ (Nat.add_le_add_left order _)

end Issues

end Checked

end CommentProse
