import CommentProse.Proofs.Checked.Comment
import CommentProse.Proofs.Checked.Steps
import CommentProse.Proofs.Coverage

/-! # Checked reading of the lines of a comment

Every span that reading or relabelling yields, and every range that is given up at an edge, is
checked to be a range of the text of the comment when it is made. What a line occurs as, and where
unfinished markup stands, says that the checks succeed; so each function gives what the unchecked
one gives.
-/

namespace CommentProse

namespace Checked

variable {text : List Char}

/-! ### Spans -/

/-- A span of which the range is one of the text. -/
def span? (text : List Char) (span : Span) : Option Span := do
  let range ← range? text span.range.start span.range.stop
  return { span with range }

theorem span?_eq {fragment : Fragment} {spans : List Span} (occurs : fragment.OccursIn text)
    (spanned : fragment.IsSpannedBy spans) : ∀ span ∈ spans, span? text span = some span := by
  intro span member
  rw [span?, range?_eq (spanned.isRangeOf occurs member)]
  rfl

theorem mapM_span?_eq {fragment : Fragment} {spans : List Span} (occurs : fragment.OccursIn text)
    (spanned : fragment.IsSpannedBy spans) : spans.mapM (span? text) = some spans :=
  mapM_eq_some_self (span?_eq occurs spanned)

/-- Reads the content of a line from `start` to `stop`. -/
def readLine? (settings : Settings) (text : List Char) (markup : OpenMarkup) (start stop : Nat) :
    Option (List Span × OpenMarkup) := do
  let line ← slice? text ⟨start, stop⟩
  let (pieces, last) ← read? settings text line start markup 0
  let spans ← (Span.ofPieces start pieces).mapM (span? text)
  return (spans, { last with reach := stop })

theorem readLine?_eq (settings : Settings) (markup : OpenMarkup) {content : Fragment}
    (occurs : content.OccursIn text) :
    readLine? settings text markup content.start content.stop =
      some (markup.readLine settings content) := by
  have read := @read?_eq text settings markup content.start [] content.text occurs
  have spanned := OpenMarkup.isSpannedBy_readLine settings markup content
  rw [readLine?, slice?_of_occursIn occurs, Option.bind_eq_bind, Option.bind_some]
  dsimp only [List.nil_append, width_nil, Nat.add_zero] at read
  rw [OpenMarkup.readLine] at spanned ⊢
  rw [read, Option.bind_eq_bind, Option.bind_some]
  dsimp only
  rw [mapM_span?_eq occurs spanned]
  rfl

/-- Reads the content of a line; on a tag line only the part behind the head is prose. -/
def readContent? (settings : Settings) (text : List Char) (markup : OpenMarkup)
    (line : CommentLine) : Option (List Span × OpenMarkup) := do
  match ← tagHead? text line.content.start line.stop with
  | some head =>
    let headed ← head.spans.mapM (span? text)
    let (spans, last) ← readLine? settings text markup head.body.start head.body.stop
    return (headed ++ spans, last)
  | none => readLine? settings text markup line.content.start line.stop

theorem readContent?_eq (settings : Settings) (markup : OpenMarkup) {line : CommentLine}
    (occurs : line.content.OccursIn text) :
    readContent? settings text markup line = some (markup.readContent settings line) := by
  have headThere : tagHead? text line.content.start line.stop = some line.tagHead? :=
    tagHead?_eq occurs
  rw [readContent?, OpenMarkup.readContent, headThere]
  cases headed : line.tagHead? with
  | none => exact readLine?_eq settings markup occurs
  | some head =>
    have tiles := TagHead.tiles_of_parse? headed
    obtain ⟨front, parts, -, spanned⟩ := tiles.isSpannedBy
    have frontOccurs := occurs.part [] front head.body.text parts
    have bodyThere := readLine?_eq settings markup (tiles.body_occursIn occurs)
    simp only [Option.bind_eq_bind, Option.bind_some,
      @mapM_span?_eq text ⟨line.content.start, front⟩ _ frontOccurs spanned, bodyThere,
      Option.pure_def]

/-! ### Edges -/

/-- The edge at which markup from before a line is given up. -/
def edge? (text : List Char) (line : CommentLine) : Option (Option Edge) := do
  let head ← tagHead? text line.content.start line.stop
  let content ← slice? text ⟨line.content.start, line.stop⟩
  return if head.isSome then some .tagLine else if allBlank content then some .blankLine else none

theorem edge?_eq {line : CommentLine} (occurs : line.content.OccursIn text) :
    edge? text line = some line.edge? := by
  have headThere : tagHead? text line.content.start line.stop = some line.tagHead? :=
    tagHead?_eq occurs
  have contentThere : slice? text ⟨line.content.start, line.stop⟩ = some line.text :=
    slice?_of_occursIn occurs
  rw [edge?, headThere, contentThere]
  rfl

/-- The range of a text that unfinished markup covers. -/
def covered? (text : List Char) (item : Unfinished) : Option Unfinished := do
  let range ← range? text item.range.start item.range.stop
  return { item with range }

theorem mapM_covered?_eq {unfinished : List Unfinished}
    (covers : ∀ item ∈ unfinished, item.range.IsRangeOf text) :
    unfinished.mapM (covered? text) = some unfinished := by
  refine mapM_eq_some_self fun item member => ?_
  rw [covered?, range?_eq (covers item member)]
  rfl

/-- Reads the lines up to the end of the comment. -/
def readLines? (settings : Settings) (text : List Char) (markup : OpenMarkup) :
    List CommentLine → Option (List (List Span) × List Unfinished)
  | [] => do
    let given ← (markup.unfinished .commentEnd).mapM (covered? text)
    return ([], given)
  | line :: lines => do
    let edge ← edge? text line
    let given ← ((edge.map markup.unfinished).getD []).mapM (covered? text)
    let opened := (edge.map markup.closed).getD markup
    let (spans, last) ← readContent? settings text opened line
    let (later, unfinished) ← readLines? settings text last lines
    return (spans :: later, given ++ unfinished)

theorem readLines?_eq (settings : Settings) {markup : OpenMarkup} {lines : List CommentLine}
    (occur : ∀ line ∈ lines, line.content.OccursIn text)
    (covers : ∀ item ∈ (markup.readLines settings lines).2, item.range.IsRangeOf text) :
    readLines? settings text markup lines = some (markup.readLines settings lines) := by
  induction lines generalizing markup with
  | nil =>
    have givenThere : (markup.unfinished .commentEnd).mapM (covered? text) =
        some (markup.unfinished .commentEnd) := mapM_covered?_eq covers
    rw [readLines?, givenThere]
    rfl
  | cons line lines ih =>
    obtain ⟨here, later⟩ := List.forall_mem_cons.mp occur
    rw [OpenMarkup.readLines] at covers ⊢
    obtain ⟨before, behind⟩ := List.forall_mem_append.mp covers
    have givenThere : ((line.edge?.map markup.unfinished).getD []).mapM (covered? text) =
        some (markup.unfinishedBefore line) := mapM_covered?_eq before
    have contentThere : readContent? settings text ((line.edge?.map markup.closed).getD markup)
        line = some ((markup.openAt line).readContent settings line) :=
      readContent?_eq settings _ here
    simp only [readLines?, edge?_eq here, givenThere, contentThere, ih later behind,
      Option.bind_eq_bind, Option.bind_some, Option.pure_def]

/-! ### Relabelling -/

/-- Makes markup of the part of a span that lies in a range, and keeps the parts on either side. -/
def relabelSpan? (text : List Char) (range : ByteRange) (span : Span) : Option (List Span) :=
  let start := max span.range.start range.start
  let stop := min span.range.stop range.stop
  if stop ≤ start ∨ span.role = .markup then some [span]
  else
    let before : List Span :=
      if span.range.start < start then [{ span with range := ⟨span.range.start, start⟩ }] else []
    let after : List Span :=
      if stop < span.range.stop then [{ span with range := ⟨stop, span.range.stop⟩ }] else []
    (before ++ ⟨.markup, ⟨start, stop⟩, span.divides⟩ :: after).mapM (span? text)

/-- Makes markup of everything in a range. -/
def relabelAll? (text : List Char) (range : ByteRange) (spans : List Span) :
    Option (List Span) := do
  let parts ← spans.mapM (relabelSpan? text range)
  return parts.flatten

/-- Makes markup of everything that unfinished markup covers. -/
def relabel? (text : List Char) (unfinished : List Unfinished) (spans : List Span) :
    Option (List Span) :=
  unfinished.foldlM (fun spans item => relabelAll? text item.range spans) spans

private theorem relabelAll?_eq {fragment : Fragment} {range : ByteRange} {spans : List Span}
    (occurs : fragment.OccursIn text)
    (relabelled : fragment.IsSpannedBy (Span.relabelAll range spans)) :
    relabelAll? text range spans = some (Span.relabelAll range spans) := by
  have parts : spans.mapM (relabelSpan? text range) = some (spans.map (Span.relabel range)) := by
    refine mapM_eq_some_map fun span member => ?_
    have inside : ∀ part ∈ Span.relabel range span, span? text part = some part :=
      fun part among => span?_eq occurs relabelled part (List.mem_flatMap.mpr ⟨span, member, among⟩)
    rw [Span.relabel] at inside ⊢
    rw [relabelSpan?]
    dsimp only at inside ⊢
    split
    · rfl
    · next cut =>
      rw [if_neg cut] at inside
      exact mapM_eq_some_self inside
  rw [relabelAll?, parts, Span.relabelAll, List.flatMap_def]
  rfl

theorem relabel?_eq {fragment : Fragment} {unfinished : List Unfinished} {spans : List Span}
    (occurs : fragment.OccursIn text) (spanned : fragment.IsSpannedBy spans)
    (covers : ∀ item ∈ unfinished, item.range.IsRangeOf text) :
    relabel? text unfinished spans = some (Unfinished.relabel unfinished spans) := by
  induction unfinished generalizing spans with
  | nil => rfl
  | cons item unfinished ih =>
    obtain ⟨here, later⟩ := List.forall_mem_cons.mp covers
    have relabelled := spanned.relabelAll occurs here.first here.last
    rw [relabel?, List.foldlM_cons, relabelAll?_eq occurs relabelled]
    exact ih relabelled later

end Checked

end CommentProse
