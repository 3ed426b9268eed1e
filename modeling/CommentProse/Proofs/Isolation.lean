import CommentProse.Proofs.Contents
import CommentProse.Proofs.FailSafe

/-! # Sections are isolated

Nothing is open behind the start of a tag line, and nothing but an element behind that of a blank
line. What was given up before covers only lines before. So from such a line on a comment is read as
if nothing stood before it (`SpannedLine.exists_ofLines_append`): two comments that have the same
contents from there on have the same lines, block tags, passages and unfinished markup there, which
`Analysis.excerpt` gathers. Behind a blank line this holds of the lines and the unfinished markup,
for passages may begin before it.
-/

namespace CommentProse

namespace OpenMarkup

/-- Where a line leaves nothing open that was open before, the lines from there on are read like the
lines of a comment of their own; all that was given up before stands in the lines before. -/
theorem readLines_append_of_openAt (settings : Settings) {front : List CommentLine}
    {line : CommentLine} {reach : Nat}
    (closes : (none.behind settings front).openAt line = idle reach) (rest : List CommentLine) :
    ∃ earlier, (∀ item ∈ earlier, item.StandsIn front) ∧
      none.readLines settings (front ++ line :: rest) =
        ((none.readLines settings front).1 ++ ((idle reach).readLines settings (line :: rest)).1,
          earlier ++ ((idle reach).readLines settings (line :: rest)).2) := by
  obtain ⟨given, final, read⟩ := readLines_append settings none front
  refine ⟨given ++ (none.behind settings front).unfinishedBefore line, ?_, ?_⟩
  · intro item member
    have givenUp : item ∈ (none.readLines settings front).2 := by
      rw [final]
      rcases List.mem_append.mp member with before | here
      · exact List.mem_append_left _ before
      · exact List.mem_append_right _ (mem_unfinished_of_mem_unfinishedBefore here)
    exact standsIn_lines_of_mem_readLines settings givenUp
  · rw [read, readLines, readLines, closes, openAt_idle, unfinishedBefore_idle]
    dsimp only
    rw [List.nil_append, List.append_assoc]

theorem openAt_of_isBlank {markup : OpenMarkup} {line : CommentLine}
    (blank : line.isBlank = true) (noElement : markup.verbatim = .none) :
    markup.openAt line = idle markup.reach := by
  have headless := CommentLine.tagHead?_of_isBlank blank
  rw [openAt, CommentLine.edge?, headless, if_neg (by simp), if_pos blank]
  simp [closed, noElement, idle]

end OpenMarkup

/-! ### What was given up before has no effect -/

theorem Span.relabel_of_stop_le {range : ByteRange} {span : Span}
    (before : range.stop ≤ span.range.start) : relabel range span = [span] := by
  rw [relabel]
  dsimp only
  rw [if_pos (.inl (by omega))]

theorem Unfinished.relabel_of_stop_le {unfinished : List Unfinished} {spans : List Span}
    (before : ∀ item ∈ unfinished, ∀ span ∈ spans, item.range.stop ≤ span.range.start) :
    relabel unfinished spans = spans := by
  induction unfinished with
  | nil => rfl
  | cons item unfinished ih =>
    have here : Span.relabelAll item.range spans = spans := by
      rw [Span.relabelAll, List.flatMap_congr fun span member =>
        Span.relabel_of_stop_le (before item List.mem_cons_self span member)]
      exact List.flatMap_singleton' spans
    have rest := ih fun other later => before other (List.mem_cons_of_mem _ later)
    change relabel unfinished (Span.relabelAll item.range spans) = spans
    rw [here, rest]

theorem Unfinished.relabel_append (earlier later : List Unfinished) (spans : List Span) :
    relabel (earlier ++ later) spans = relabel later (relabel earlier spans) :=
  List.foldl_append

namespace SpannedLine

/-- From a line on that leaves nothing open, the lines are spanned as if nothing stood before, and
what was given up before that line covers only lines before. -/
theorem exists_ofLines_append (settings : Settings) {front rest : List CommentLine}
    {line : CommentLine} {reach : Nat}
    (closes : (OpenMarkup.none.behind settings front).openAt line = .idle reach)
    (ordered : (front ++ line :: rest).Pairwise fun line later => line.stop < later.start) :
    ∃ head earlier, head.map SpannedLine.line = front ∧
      (∀ item ∈ earlier, item.StandsIn front) ∧
      ofLines settings .none (front ++ line :: rest) =
        head ++ ofLines settings (.idle reach) (line :: rest) ∧
      (OpenMarkup.none.readLines settings (front ++ line :: rest)).2 =
        earlier ++ ((OpenMarkup.idle reach).readLines settings (line :: rest)).2 := by
  obtain ⟨earlier, stands, read⟩ := OpenMarkup.readLines_append_of_openAt settings closes rest
  have lengths : front.length = (OpenMarkup.none.readLines settings front).1.length :=
    (OpenMarkup.forall₂_readLines settings .none front).length_eq
  have spanned := OpenMarkup.forall₂_readLines settings (.idle reach) (line :: rest)
  refine ⟨(front.zip (OpenMarkup.none.readLines settings front).1).map fun written =>
    ⟨written.1, Unfinished.relabel (earlier ++
      ((OpenMarkup.idle reach).readLines settings (line :: rest)).2) written.2⟩, earlier, ?_,
    stands, ?_, congrArg Prod.snd read⟩
  · rw [List.map_map]
    exact List.map_fst_zip lengths.le
  · rw [ofLines, ofLines, read, List.zip_append lengths, List.map_append]
    congr 1
    · apply List.map_congr_left
      rintro ⟨written, spans⟩ paired
      have among := (List.of_mem_zip paired).1
      have tiles := (List.forall₂_iff_zip.mp spanned |>.2 paired).1.tiles.pairwise.2
      have untouched : Unfinished.relabel earlier spans = spans := by
        apply Unfinished.relabel_of_stop_le
        intro item member span present
        obtain ⟨last, final, stop⟩ := (stands item member).exists_last
        have order := (List.pairwise_append.mp ordered).2.2 last final written among
        have inside := (tiles span present).1
        have margin : written.start ≤ written.content.start := Nat.le_add_right _ _
        omega
      dsimp only
      rw [Unfinished.relabel_append, untouched]

end SpannedLine

/-! ### Excerpts -/

/-- The name of the tag that prose comes from. -/
def Origin.tagName? : Origin → Option String
  | .description => none
  | .tag _ name => some name

/-- What is found in a comment from some offset on. -/
@[ext] structure Excerpt where
  readings : List LineReading
  tags : List TagReport
  passages : List (Option String × List Char)
  unfinished : List Construct
deriving DecidableEq, Repr

namespace Analysis

/-- The lines, tags, passages and unfinished markup that begin at or behind an offset of the
comment. -/
def excerpt (start : Nat) (analysis : Analysis) : Excerpt where
  readings := (analysis.lines.filter (start ≤ ·.line.start)).map SpannedLine.reading
  tags := (analysis.outline.tags.filter (start ≤ ·.opening.line.start)).map
    (TagSection.report fun line => line.line.content)
  passages := (analysis.passages.filter (analysis.offset + start ≤ ·.start)).map fun passage =>
    (passage.origin.tagName?, passage.text)
  unfinished := (analysis.unfinished.filter (start ≤ ·.range.start)).map Unfinished.construct

variable {settings : Settings} {offset start : Nat} {lines head tail : List SpannedLine}

theorem filter_append_eq_right {α : Type} {front back : List α} {keep : α → Bool}
    (drops : ∀ item ∈ front, keep item = false) (keeps : ∀ item ∈ back, keep item = true) :
    (front ++ back).filter keep = back := by
  rw [List.filter_append, List.filter_eq_self.mpr keeps, List.filter_eq_nil_iff.mpr,
    List.nil_append]
  exact fun item member => by simp [drops item member]

/-- A passage starts in one of the lines that it is made of. -/
theorem start_of_mem_passages (spanned : ∀ line ∈ lines, line.line.content.IsSpannedBy line.spans)
    {draft : List Char × Provenance}
    (member : draft ∈ ProseItem.passages (itemsOf settings offset lines)) :
    ∃ line ∈ lines, offset + line.line.start ≤ (draft.2.origin? 0).getD 0 ∧
      (draft.2.origin? 0).getD 0 ≤ offset + line.line.stop := by
  obtain ⟨stretch, among, isPassage⟩ := ProseItem.exists_stretch_of_mem_passages member
  obtain ⟨before, after, items, -⟩ := ProseItem.exists_append_of_mem_stretches among
  obtain ⟨item, present, here⟩ := List.mem_flatMap.mp isPassage.start_mem
  have within : item ∈ itemsOf settings offset lines := by
    rw [items]
    exact List.mem_append_left _ (List.mem_append_right _ present)
  obtain ⟨line, lineMember, placed, placedMember, rfl⟩ := exists_placedItem_of_mem within
  obtain ⟨lower, -, upper, bytes⟩ :=
    SpannedLine.bounds_of_mem_placedItems (spanned line lineMember) placedMember
  have range := bytes _ here
  simp only [ByteRange.mem_iff, ByteRange.shift] at range
  exact ⟨line, lineMember, by omega, by omega⟩

/-- A passage of sections that are made of certain lines starts in one of these. -/
theorem start_of_mem_drafts {sections : List (Origin × List SpannedLine)}
    (inside : ∀ part ∈ sections, part.2 ⊆ lines)
    (spanned : ∀ line ∈ lines, line.line.content.IsSpannedBy line.spans)
    {draft : Origin × List Char × Provenance}
    (member : draft ∈ sections.flatMap fun part =>
      (ProseItem.passages (itemsOf settings offset part.2)).map (part.1, ·)) :
    ∃ line ∈ lines, offset + line.line.start ≤ (draft.2.2.origin? 0).getD 0 ∧
      (draft.2.2.origin? 0).getD 0 ≤ offset + line.line.stop := by
  obtain ⟨part, present, here⟩ := List.mem_flatMap.mp member
  obtain ⟨made, among, rfl⟩ := List.mem_map.mp here
  obtain ⟨line, within, bounds⟩ := start_of_mem_passages
    (fun line within => spanned line (inside part present within)) among
  exact ⟨line, inside part present within, bounds⟩

/-- Selecting passages by where they start is selecting drafts. -/
theorem map_filter_passagesOf (settings : Settings) (offset start : Nat)
    (lines : List SpannedLine) :
    ((passagesOf settings offset lines).filter (start ≤ ·.start)).map
        (fun passage => (passage.origin.tagName?, passage.text)) =
      (((sectionsOf lines).flatMap fun part =>
        (ProseItem.passages (itemsOf settings offset part.2)).map (part.1, ·)).filter
          fun draft => start ≤ (draft.2.2.origin? 0).getD 0).map
            fun draft => (draft.1.tagName?, draft.2.1) := by
  rw [passagesOf_eq]
  generalize ((sectionsOf lines).flatMap fun part =>
    (ProseItem.passages (itemsOf settings offset part.2)).map (part.1, ·)) = drafts
  have unnumbered := List.zipIdx_map_fst 0 drafts
  conv_rhs => rw [← unnumbered]
  rw [List.filter_map, List.filter_map, List.map_map, List.map_map]
  rfl

end Analysis

/-- The texts of the passages of the tags that begin in readings, each with the name of its tag. -/
def LineReading.tagWordings (settings : Settings) (readings : List LineReading) :
    List (Option String × List Char) :=
  (outline readings).tags.flatMap fun tag =>
    (Wording.empty.texts (tag.lines.flatMap (words settings))).map (some tag.name, ·)

namespace SpannedLine

/-- The lines of a comment fall into those before an offset and those from there on. -/
structure PartedAt (start : Nat) (head tail : List SpannedLine) : Prop where
  before : ∀ line ∈ head, line.line.stop < start
  behind : ∀ line ∈ tail, start ≤ line.line.start
  spanned : ∀ line ∈ head ++ tail, line.line.content.IsSpannedBy line.spans

namespace PartedAt

variable {settings : Settings} {offset start : Nat} {head tail others : List SpannedLine}
  {first : SpannedLine} {opening : TagHead}

theorem filter_lines (parted : PartedAt start head tail) :
    (head ++ tail).filter (start ≤ ·.line.start) = tail := by
  apply Analysis.filter_append_eq_right
  · intro line member
    have order := parted.before line member
    have forward := DocComment.start_le_stop line.line
    exact decide_eq_false (by omega)
  · exact fun line member => decide_eq_true (parted.behind line member)

theorem filter_tags (parted : PartedAt start head (first :: others))
    (headed : first.tagHead? = some opening) :
    (Outline.ofLines tagHead? (head ++ first :: others)).tags.filter
        (start ≤ ·.opening.line.start) =
      (Outline.ofLines tagHead? (first :: others)).tags := by
  rw [Outline.ofLines_append_cons headed]
  apply Analysis.filter_append_eq_right
  · intro tag member
    have order := parted.before _ (Outline.mem_of_mem_tags member List.mem_cons_self)
    have forward := DocComment.start_le_stop tag.opening.line
    exact decide_eq_false (by omega)
  · intro tag member
    exact decide_eq_true (parted.behind _ (Outline.mem_of_mem_tags member List.mem_cons_self))

/-- The passages that start from a tag line on are those of the tags from there on. -/
theorem map_filter_passagesOf (parted : PartedAt start head (first :: others))
    (headed : first.tagHead? = some opening) (settings : Settings) (offset : Nat) :
    ((Analysis.passagesOf settings offset (head ++ first :: others)).filter
        (offset + start ≤ ·.start)).map (fun passage => (passage.origin.tagName?, passage.text)) =
      LineReading.tagWordings settings ((first :: others).map reading) := by
  obtain ⟨description, tags, shape⟩ : ∃ description tags,
      Outline.ofLines tagHead? head = ⟨description, tags⟩ := ⟨_, _, rfl⟩
  rw [Analysis.map_filter_passagesOf, Analysis.sectionsOf, Outline.ofLines_append_cons headed,
    Outline.sections_append, List.flatMap_append, Analysis.filter_append_eq_right]
  · -- What is left are the sections of the tags.
    rw [List.flatMap_map, List.map_flatMap, LineReading.tagWordings, outline_map_reading,
      Outline.map, List.flatMap_map]
    have unnumbered := List.zipIdx_map_fst (Outline.ofLines tagHead? head).tags.length
      (Outline.ofLines tagHead? (first :: others)).tags
    conv_rhs => rw [← unnumbered]
    rw [List.flatMap_map]
    apply List.flatMap_congr
    rintro ⟨tag, index⟩ -
    rw [TagSection.lines_map, ← Analysis.map_word_itemsOf settings offset,
      ← ProseItem.map_fst_passages, List.map_map, List.map_map]
    rfl
  · intro draft member
    have inside : ∀ part ∈ Analysis.sectionsOf head, part.2 ⊆ head :=
      fun part present => Analysis.subset_of_mem_sectionsOf present
    obtain ⟨line, within, -, upper⟩ := Analysis.start_of_mem_drafts inside
      (fun line within => parted.spanned line (List.mem_append_left _ within)) member
    have order := parted.before line within
    exact decide_eq_false (by omega)
  · intro draft member
    obtain ⟨line, within, lower, -⟩ : ∃ line ∈ first :: others, _ ∧ _ := by
      refine Analysis.start_of_mem_drafts ?_
        (fun line within => parted.spanned line (List.mem_append_right _ within)) member
      intro part present
      obtain ⟨⟨tag, index⟩, numbered, rfl⟩ := List.mem_map.mp present
      have tagMember := List.mem_map_of_mem (f := Prod.fst) numbered
      rw [List.zipIdx_map_fst] at tagMember
      exact Outline.mem_of_mem_tags tagMember
    have order := parted.behind line within
    exact decide_eq_true (by omega)

end PartedAt

end SpannedLine

section Comment

variable {settings : Settings} {offset reach : Nat} {comment : DocComment}
  {front rest : List CommentLine} {line : CommentLine}

theorem CommentLine.start_le_of_pairwise
    (ordered : (line :: rest).Pairwise fun line later => line.stop < later.start)
    {other : CommentLine} (member : other ∈ line :: rest) : line.start ≤ other.start := by
  rcases List.mem_cons.mp member with rfl | later
  · exact Nat.le_refl _
  · have behind := (List.pairwise_cons.mp ordered).1 other later
    exact (DocComment.start_le_stop line).trans behind.le

/-- What is given up in the lines from some line on is what begins there. -/
theorem Unfinished.filter_append
    (ordered : (front ++ line :: rest).Pairwise fun line later => line.stop < later.start)
    {earlier later : List Unfinished} (before : ∀ item ∈ earlier, item.StandsIn front)
    (behind : ∀ item ∈ later, item.StandsIn (line :: rest)) :
    (earlier ++ later).filter (line.start ≤ ·.range.start) = later := by
  obtain ⟨-, rear, across⟩ := List.pairwise_append.mp ordered
  apply Analysis.filter_append_eq_right
  · intro item member
    obtain ⟨opened, among, opens⟩ := (before item member).opened
    have apart := across opened among line List.mem_cons_self
    have bounds := opens.bounds
    exact decide_eq_false (by omega)
  · intro item member
    obtain ⟨opened, among, opens⟩ := (behind item member).opened
    have bounds := opens.bounds
    have margin : opened.start ≤ opened.content.start := Nat.le_add_right _ _
    have order := CommentLine.start_le_of_pairwise rear among
    exact decide_eq_true (by omega)

/-- The spanned lines of a comment are parted where those from some line on are spanned as if
nothing stood before. -/
theorem SpannedLine.partedAt_of_ofLines {head : List SpannedLine}
    (lines : comment.lines = front ++ line :: rest) (written : head.map SpannedLine.line = front)
    (spanned : ofLines settings .none comment.lines =
      head ++ ofLines settings (.idle reach) (line :: rest)) :
    PartedAt line.start head (ofLines settings (.idle reach) (line :: rest)) := by
  have ordered := comment.pairwise_lines
  rw [lines] at ordered
  obtain ⟨-, rear, across⟩ := List.pairwise_append.mp ordered
  refine ⟨?_, ?_, ?_⟩
  · intro other member
    exact across other.line (written ▸ List.mem_map_of_mem member) line List.mem_cons_self
  · intro other member
    have among := List.mem_map_of_mem (f := SpannedLine.line) member
    rw [map_line_ofLines] at among
    exact CommentLine.start_le_of_pairwise rear among
  · intro other member
    rw [← spanned] at member
    exact isSpannedBy_of_mem_ofLines settings (fun line => DocComment.content_occursIn) member

end Comment

namespace Analysis

variable {settings : Settings} {offset reach : Nat} {comment : DocComment}
  {front rest : List CommentLine} {line : CommentLine}

/-- From a line on that leaves nothing open, an excerpt has what is read in the lines from there on;
if it is a tag line, also what their tags and the prose of these say. -/
theorem excerpt_ofComment (settings : Settings) (offset : Nat)
    (lines : comment.lines = front ++ line :: rest)
    (closes : (OpenMarkup.none.behind settings front).openAt line = .idle reach) :
    ((ofComment settings offset comment).excerpt line.start).readings =
        (SpannedLine.ofLines settings (.idle reach) (line :: rest)).map SpannedLine.reading ∧
      ((ofComment settings offset comment).excerpt line.start).unfinished =
        ((OpenMarkup.idle reach).readLines settings (line :: rest)).2.map Unfinished.construct ∧
      (line.tagHead?.isSome = true →
        ((ofComment settings offset comment).excerpt line.start).tags = LineReading.tagReports
            ((SpannedLine.ofLines settings (.idle reach) (line :: rest)).map SpannedLine.reading) ∧
          ((ofComment settings offset comment).excerpt line.start).passages =
            LineReading.tagWordings settings ((SpannedLine.ofLines settings (.idle reach)
              (line :: rest)).map SpannedLine.reading)) := by
  have ordered := comment.pairwise_lines
  rw [lines] at ordered
  obtain ⟨head, earlier, written, stands, spanned, given⟩ :=
    SpannedLine.exists_ofLines_append settings closes ordered
  rw [← lines] at spanned given
  have parted := SpannedLine.partedAt_of_ofLines lines written spanned
  have whole : (ofComment settings offset comment).lines =
      head ++ SpannedLine.ofLines settings (.idle reach) (line :: rest) := spanned
  have items : (ofComment settings offset comment).unfinished =
      earlier ++ ((OpenMarkup.idle reach).readLines settings (line :: rest)).2 := given
  refine ⟨?_, ?_, ?_⟩
  · rw [excerpt, whole]
    exact congrArg _ parted.filter_lines
  · rw [excerpt, items]
    exact congrArg _ (Unfinished.filter_append ordered stands
      fun item => OpenMarkup.standsIn_lines_of_mem_readLines settings)
  · intro headed
    obtain ⟨opening, head?⟩ := Option.isSome_iff_exists.mp headed
    obtain ⟨first, others, shape, same⟩ : ∃ first others,
        SpannedLine.ofLines settings (.idle reach) (line :: rest) = first :: others ∧
          first.tagHead? = some opening := ⟨_, _, rfl, head?⟩
    rw [shape] at parted whole ⊢
    constructor
    · rw [excerpt]
      dsimp only
      rw [Analysis.outline, whole, parted.filter_tags same, LineReading.tagReports_map_reading]
    · have passages : (ofComment settings offset comment).passages =
          passagesOf settings offset (head ++ first :: others) := by
        rw [← whole]
        rfl
      rw [excerpt]
      dsimp only
      rw [passages]
      exact parted.map_filter_passagesOf same settings offset

/-- Two comments that have the same contents from a tag line on have the same lines, block tags,
passages and unfinished markup from there on, whatever stands before and is still open. Two that
have the same contents from a blank line on, in which no element is open, have the same lines and
the same unfinished markup from there on. -/
theorem sections_are_isolated (settings : Settings) {block block' : Fragment}
    {comment comment' : DocComment} (parsed : DocComment.parse block.text = .ok comment)
    (parsed' : DocComment.parse block'.text = .ok comment')
    {front front' rest rest' : List CommentLine} {line line' : CommentLine}
    (lines : comment.lines = front ++ line :: rest)
    (lines' : comment'.lines = front' ++ line' :: rest')
    (same : (line :: rest).map CommentLine.text = (line' :: rest').map CommentLine.text) :
    ∃ analysis analysis', ofBlock settings block = .ok analysis ∧
      ofBlock settings block' = .ok analysis' ∧
      (line.tagHead?.isSome = true →
        analysis.excerpt line.start = analysis'.excerpt line'.start) ∧
      (line.isBlank = true → (OpenMarkup.none.behind settings front).verbatim = .none →
        (OpenMarkup.none.behind settings front').verbatim = .none →
          (analysis.excerpt line.start).readings = (analysis'.excerpt line'.start).readings ∧
          (analysis.excerpt line.start).unfinished =
            (analysis'.excerpt line'.start).unfinished) := by
  have ordered := comment.pairwise_lines
  have ordered' := comment'.pairwise_lines
  rw [lines] at ordered
  rw [lines'] at ordered'
  have occur : ∀ other ∈ line :: rest, other.content.OccursIn comment.source := by
    intro other member
    apply DocComment.content_occursIn
    rw [lines]
    exact List.mem_append_right _ member
  have alike (reach reach' : Nat) := SpannedLine.map_reading_ofLines settings reach reach' same
    (List.pairwise_append.mp ordered).2.1 (List.pairwise_append.mp ordered').2.1 occur
  obtain ⟨move, moves⟩ := Fragment.MovesTo.exists_of_text line.content line'.content
    (List.cons.inj same).1.symm
  refine ⟨_, _, ofBlock_eq_ok_iff.mpr ⟨comment, parsed, rfl⟩,
    ofBlock_eq_ok_iff.mpr ⟨comment', parsed', rfl⟩, ?_, ?_⟩
  · intro headed
    have headed' : line'.tagHead?.isSome = true := by
      have heads := CommentLine.tagHead?_movesTo moves
      generalize line.tagHead? = source at heads headed
      generalize line'.tagHead? = target at heads ⊢
      cases heads with
      | none => exact headed
      | some parts => rfl
    obtain ⟨readings, unfinished, tagged⟩ := excerpt_ofComment settings block.start lines
      (OpenMarkup.openAt_of_tagHead? _ headed)
    obtain ⟨readings', unfinished', tagged'⟩ := excerpt_ofComment settings block'.start lines'
      (OpenMarkup.openAt_of_tagHead? _ headed')
    obtain ⟨tags, passages⟩ := tagged headed
    obtain ⟨tags', passages'⟩ := tagged' headed'
    obtain ⟨spans, constructs⟩ := alike (OpenMarkup.none.behind settings front).reach
      (OpenMarkup.none.behind settings front').reach
    rw [spans] at readings tags passages
    exact Excerpt.ext (readings.trans readings'.symm) (tags.trans tags'.symm)
      (passages.trans passages'.symm)
      (unfinished.trans (constructs.trans unfinished'.symm))
  · intro blank noElement noElement'
    have blank' : line'.isBlank = true := (CommentLine.isBlank_eq moves).trans blank
    obtain ⟨readings, unfinished, -⟩ := excerpt_ofComment settings block.start lines
      (OpenMarkup.openAt_of_isBlank blank noElement)
    obtain ⟨readings', unfinished', -⟩ := excerpt_ofComment settings block'.start lines'
      (OpenMarkup.openAt_of_isBlank blank' noElement')
    obtain ⟨spans, constructs⟩ := alike (OpenMarkup.none.behind settings front).reach
      (OpenMarkup.none.behind settings front').reach
    exact ⟨readings.trans (spans.trans readings'.symm),
      unfinished.trans (constructs.trans unfinished'.symm)⟩

/-- An element is open before one tag line and a reference before the other; a tag is open before
one blank line, and nothing before the other. -/
theorem sections_are_isolated_behind_open_markup :
    (∃ analysis analysis',
      ofBlock .standard ⟨0, "/** <pre>a\n * @throws E x <b>y*/".toList⟩ = .ok analysis ∧
      ofBlock .standard ⟨5, "/** \x7b@link a\n@throws E x <b>y*/".toList⟩ = .ok analysis' ∧
      analysis.excerpt 11 = analysis'.excerpt 13) ∧
    ∃ analysis analysis',
      ofBlock .standard ⟨0, "/** <i a\n *\n * b <c*/".toList⟩ = .ok analysis ∧
      ofBlock .standard ⟨5, "/** x\n\nb <c*/".toList⟩ = .ok analysis' ∧
      (analysis.excerpt 9).readings = (analysis'.excerpt 6).readings := by
  constructor
  · obtain ⟨analysis, analysis', analysed, analysed', tagLine, -⟩ :=
      @sections_are_isolated .standard
        ⟨0, "/** <pre>a\n * @throws E x <b>y*/".toList⟩
        ⟨5, "/** \x7b@link a\n@throws E x <b>y*/".toList⟩
        ⟨" <pre>a\n * @throws E x <b>y".toList, []⟩ ⟨" \x7b@link a\n@throws E x <b>y".toList, []⟩
        (by decide +kernel) (by decide +kernel)
        [⟨3, [' '], "<pre>a".toList, ['\n']⟩] [⟨3, [' '], "\x7b@link a".toList, ['\n']⟩] [] []
        ⟨11, " * ".toList, "@throws E x <b>y".toList, []⟩ ⟨13, [], "@throws E x <b>y".toList, []⟩
        (by decide +kernel) (by decide +kernel) rfl
    exact ⟨analysis, analysis', analysed, analysed', tagLine (by decide +kernel)⟩
  · obtain ⟨analysis, analysis', analysed, analysed', -, blankLine⟩ :=
      @sections_are_isolated .standard
        ⟨0, "/** <i a\n *\n * b <c*/".toList⟩ ⟨5, "/** x\n\nb <c*/".toList⟩
        ⟨" <i a\n *\n * b <c".toList, []⟩ ⟨" x\n\nb <c".toList, []⟩
        (by decide +kernel) (by decide +kernel)
        [⟨3, [' '], "<i a".toList, ['\n']⟩] [⟨3, [' '], ['x'], ['\n']⟩]
        [⟨12, " * ".toList, "b <c".toList, []⟩] [⟨7, [], "b <c".toList, []⟩]
        ⟨9, " *".toList, [], ['\n']⟩ ⟨6, [], [], ['\n']⟩
        (by decide +kernel) (by decide +kernel) rfl
    exact ⟨analysis, analysis', analysed, analysed',
      (blankLine rfl (by decide +kernel) (by decide +kernel)).1⟩

end Analysis

end CommentProse
