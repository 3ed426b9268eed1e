import CommentProse.Report.Issue
import CommentProse.Proofs.Coverage
import CommentProse.Proofs.Delimiters
import CommentProse.Proofs.Markup.Nesting

/-! # The order of issues

Unfinished markup is listed in the order in which it is given up, and at one edge by kind: a tag,
then a reference, then an element. The issues of a source come in this order, so they follow the
text only as far as the order of kinds agrees with the nesting (`FoundComment.issues_sorted_iff`).
It does for an element that opens inside a reference. A tag or a reference is listed before
whatever it is nested in.
-/

namespace CommentProse

namespace Unfinished

/-- Unfinished markup that begins in the range of other unfinished markup and ends with it or
before. -/
def Inside (inner outer : Unfinished) : Prop :=
  outer.range.start < inner.range.start ∧ inner.range.stop ≤ outer.range.stop

def IsElement (item : Unfinished) : Prop := ∃ name, item.construct = .element name

/-- How unfinished markup and what is listed behind it can stand to each other. -/
structure GivenUpBefore (item later : Unfinished) : Prop where
  stop : item.range.stop ≤ later.range.stop
  within : item.Inside later → ¬item.IsElement
  around : later.Inside item → later.IsElement

/-- In the order in which it is given up, unfinished markup starts in the order of the text if and
only if nothing but elements is nested in it. -/
theorem pairwise_start_iff {unfinished : List Unfinished}
    (order : unfinished.Pairwise GivenUpBefore) :
    unfinished.Pairwise (fun item later => item.range.start ≤ later.range.start) ↔
      ∀ inner ∈ unfinished, ∀ outer ∈ unfinished, inner.Inside outer → inner.IsElement := by
  constructor
  · intro sorted
    refine List.Pairwise.forall_of_forall_of_flip ?_ ?_ ?_
    · exact fun item _ inside => absurd inside.1 (Nat.lt_irrefl _)
    · exact sorted.imp fun start inside => absurd inside.1 (Nat.not_lt.mpr start)
    · exact order.imp fun before => before.around
  · intro elements
    refine order.imp_of_mem fun {item later} member laterMember before => ?_
    refine Nat.not_lt.mp fun start => ?_
    have inside : item.Inside later := ⟨start, before.stop⟩
    exact before.within inside (elements item member later laterMember inside)

end Unfinished

namespace OpenMarkup

variable {markup : OpenMarkup} {settings : Settings} {line : CommentLine}
  {lines : List CommentLine} {item : Unfinished}

/-! ### One edge -/

theorem stop_of_mem_unfinished {edge : Edge} (member : item ∈ markup.unfinished edge) :
    item.range.stop = markup.reach := by
  have openings : markup.OpenedAs fun _ _ => True := ⟨by simp, by simp, by simp, by simp⟩
  exact (openings.unfinished edge member).2

theorem not_isElement_of_mem_unfinished (member : item ∈ markup.unfinished .blankLine) :
    ¬item.IsElement := by
  simp only [unfinished, unfinishedElement, if_true, Option.toList_none, List.append_nil,
    List.mem_append, Option.mem_toList] at member
  rcases member with inTag | inReference
  · obtain ⟨tag, -, rfl⟩ := Option.map_eq_some_iff.mp inTag
    simp [Unfinished.IsElement]
  · obtain ⟨reference, -, rfl⟩ := Option.map_eq_some_iff.mp inReference
    simp [Unfinished.IsElement]

/-- At one edge a tag is nested in all that is listed behind it, and a reference in no more than an
element. -/
theorem Nested.pairwise_unfinished {place : Nat} (nested : markup.Nested place) (edge : Edge) :
    (markup.unfinished edge).Pairwise Unfinished.GivenUpBefore := by
  have single {kind : Option Unfinished} : kind.toList.Pairwise Unfinished.GivenUpBefore := by
    cases kind <;> simp
  have element : ∀ item ∈ (markup.unfinishedElement edge).toList,
      ∃ element, markup.verbatim = some element ∧
        item = ⟨.element element.name, ⟨element.start, markup.reach⟩⟩ := by
    intro item member
    rw [Option.mem_toList, unfinishedElement] at member
    split at member
    · simp at member
    · obtain ⟨element, verbatim, rfl⟩ := Option.map_eq_some_iff.mp member
      exact ⟨element, verbatim, rfl⟩
  rw [unfinished, List.append_assoc, List.pairwise_append, List.pairwise_append]
  refine ⟨single, ⟨single, single, ?_⟩, ?_⟩
  · intro item member later behind
    obtain ⟨reference, last, rfl⟩ := Option.map_eq_some_iff.mp (Option.mem_toList.mp member)
    obtain ⟨element, verbatim, rfl⟩ := element later behind
    exact ⟨Nat.le_refl _, fun _ => by simp [Unfinished.IsElement], fun _ => ⟨_, rfl⟩⟩
  · intro item member later behind
    obtain ⟨tag, open_eq, rfl⟩ := Option.map_eq_some_iff.mp (Option.mem_toList.mp member)
    -- The tag began last, so nothing is nested in it.
    have start : later.range.start < tag.start ∧ later.range.stop = markup.reach := by
      rcases List.mem_append.mp behind with inReference | inElement
      · obtain ⟨reference, last, rfl⟩ :=
          Option.map_eq_some_iff.mp (Option.mem_toList.mp inReference)
        exact ⟨(nested.tagInReferences tag open_eq reference (List.mem_of_getLast? last)).2, rfl⟩
      · obtain ⟨element, verbatim, rfl⟩ := element later inElement
        exact ⟨nested.tagInElement tag element open_eq verbatim, rfl⟩
    exact ⟨Nat.le_of_eq start.2.symm, fun _ => by simp [Unfinished.IsElement],
      fun inside => absurd inside.1 (Nat.not_lt.mpr (Nat.le_of_lt start.1))⟩

/-! ### All lines -/

theorem Nested.openAt {place : Nat} (nested : markup.Nested place) :
    (markup.openAt line).Nested place := by
  rw [OpenMarkup.openAt]
  cases line.edge? with
  | none => exact nested
  | some edge => exact nested.closed edge

/-- Markup that was open before a line is nested as it should be behind it. -/
theorem Nested.readContent (nested : markup.Nested line.content.start) :
    (markup.readContent settings line).2.Nested line.stop := by
  have reach := reach_readContent settings markup line
  cases headed : line.tagHead? with
  | none =>
    simp only [OpenMarkup.readContent, headed]
    exact nested.readLine
  | some head =>
    simp only [OpenMarkup.readContent, headed] at reach ⊢
    obtain ⟨front, -, start, -⟩ := (TagHead.tiles_of_parse? headed).isSpannedBy
    have body : markup.Nested head.body.start := nested.mono (start ▸ Nat.le_add_right _ _)
    exact reach ▸ body.readLine

/-- Whatever is given up from here on reaches beyond all that has been read. -/
theorem reach_le_of_mem_readLines (after : ∀ line ∈ lines, markup.reach ≤ line.start)
    (ordered : lines.Pairwise fun line later => line.stop < later.start)
    (member : item ∈ (markup.readLines settings lines).2) : markup.reach ≤ item.range.stop := by
  induction lines generalizing markup with
  | nil => exact Nat.le_of_eq (stop_of_mem_unfinished member).symm
  | cons line lines ih =>
    obtain ⟨later, ordered⟩ := List.pairwise_cons.mp ordered
    rcases List.mem_append.mp member with before | behind
    · have given := mem_unfinished_of_mem_unfinishedBefore before
      exact Nat.le_of_eq (stop_of_mem_unfinished given).symm
    · have reached := reach_readContent settings (markup.openAt line) line
      have rest : ((markup.openAt line).readContent settings line).2.reach ≤ item.range.stop :=
        ih (fun other present => reached ▸ Nat.le_of_lt (later other present)) ordered behind
      have forward := DocComment.start_le_stop line
      have start := after line List.mem_cons_self
      omega

/-- What is given up before a line and what is given up later. Elements outlive a blank line; behind
a tag line everything begins anew. -/
theorem Nested.givenUpBefore (nested : markup.Nested markup.reach)
    (after : ∀ other ∈ line :: lines, markup.reach < other.start)
    (ordered : (line :: lines).Pairwise fun line later => line.stop < later.start)
    (member : item ∈ markup.unfinishedBefore line) {later : Unfinished}
    (behind : later ∈
      (((markup.openAt line).readContent settings line).2.readLines settings lines).2) :
    item.GivenUpBefore later := by
  have stop := stop_of_mem_unfinished (mem_unfinished_of_mem_unfinishedBefore member)
  have beyond : markup.reach < later.range.stop := by
    have reached := reach_readContent settings (markup.openAt line) line
    have bound := reach_le_of_mem_readLines (fun other present => reached ▸
      Nat.le_of_lt (List.rel_of_pairwise_cons ordered present)) ordered.of_cons behind
    have start := after line List.mem_cons_self
    have forward := DocComment.start_le_stop line
    omega
  refine ⟨by omega, fun inside => ?_, fun inside => absurd inside.2 (by omega)⟩
  cases headed : line.tagHead?.isSome with
  | true =>
    -- Whatever is given up later was opened behind the tag line.
    rw [openAt_of_tagHead? markup headed] at behind
    have fresh : later ∈ ((OpenMarkup.idle markup.reach).readLines settings (line :: lines)).2 := by
      rw [readLines, openAt_idle, unfinishedBefore_idle]
      exact behind
    obtain ⟨opening, present, opens⟩ := (standsIn_lines_of_mem_readLines settings fresh).opened
    have before := nested.behind.unfinished .commentEnd
      (mem_unfinished_of_mem_unfinishedBefore member)
    have start := after opening present
    have margin : opening.start ≤ opening.content.start := Nat.le_add_right _ _
    have := opens.bounds.1
    have := inside.1
    omega
  | false =>
    have atBlank : item ∈ markup.unfinished .blankLine := by
      rw [unfinishedBefore, CommentLine.edge?, headed] at member
      cases blank : line.isBlank <;> simp [blank] at member
      exact member
    exact not_isElement_of_mem_unfinished atBlank

/-- All that is given up in a comment is listed in the order in which it is given up. -/
theorem Nested.pairwise_readLines (nested : markup.Nested markup.reach)
    (after : ∀ line ∈ lines, markup.reach < line.start)
    (ordered : lines.Pairwise fun line later => line.stop < later.start) :
    (markup.readLines settings lines).2.Pairwise Unfinished.GivenUpBefore := by
  induction lines generalizing markup with
  | nil => exact nested.pairwise_unfinished _
  | cons line lines ih =>
    have start := after line List.mem_cons_self
    have margin : line.start ≤ line.content.start := Nat.le_add_right _ _
    have reached := reach_readContent settings (markup.openAt line) line
    have final : ((markup.openAt line).readContent settings line).2.Nested line.stop :=
      (nested.openAt.mono (by omega)).readContent
    rw [← reached] at final
    refine List.pairwise_append.mpr ⟨?_, ih final ?_ ordered.of_cons, ?_⟩
    · rw [unfinishedBefore]
      cases line.edge? with
      | none => exact .nil
      | some edge => exact nested.pairwise_unfinished edge
    · exact fun other present => reached ▸ List.rel_of_pairwise_cons ordered present
    · exact fun item member later behind => nested.givenUpBefore after ordered member behind

end OpenMarkup

/-! ### Comments and sources -/

namespace Analysis

variable {settings : Settings} {block : Fragment} {analysis : Analysis}

theorem pairwise_unfinished (analysed : ofBlock settings block = .ok analysis) :
    analysis.unfinished.Pairwise Unfinished.GivenUpBefore := by
  obtain ⟨comment, parsed, rfl⟩ := ofBlock_eq_ok_iff.mp analysed
  refine OpenMarkup.Nested.pairwise_readLines (OpenMarkup.Nested.idle 0 0) ?_ comment.pairwise_lines
  intro line member
  have start : width opener ≤ line.start := CommentLine.start_le_of_mem_place member
  exact Nat.lt_of_lt_of_le (by decide) start

/-- Unfinished markup begins in the comment. -/
theorem start_lt_of_mem_unfinished (analysed : ofBlock settings block = .ok analysis)
    {item : Unfinished} (member : item ∈ analysis.unfinished) :
    item.range.start < width block.text := by
  obtain ⟨comment, parsed, rfl⟩ := ofBlock_eq_ok_iff.mp analysed
  have fresh : item ∈ ((OpenMarkup.idle 0).readLines settings comment.lines).2 := member
  obtain ⟨line, among, opens⟩ := (OpenMarkup.standsIn_lines_of_mem_readLines settings fresh).opened
  have whole := congrArg width (DocComment.source_of_parse parsed)
  have inside := opens.bounds.2
  have upper := DocComment.stop_le_closer among
  simp only [DocComment.source, DocComment.closerFragment_start, width_append] at whole upper
  omega

end Analysis

namespace FoundComment

variable {settings : Settings} {source : List Char} {found : FoundComment}

/-- The issues of a comment are at the places that they are about, as long as offsets fit. -/
theorem map_start_issues (small : width source ≤ Issue.maxOffset)
    (member : found ∈ all settings source) (table : LineTable) {analysis : Analysis}
    (analysed : found.outcome = .ok analysis) :
    (found.issues table).map (·.range.start) =
      analysis.unfinished.map (found.block.start + ·.range.start) := by
  obtain ⟨block, present, rfl⟩ := List.mem_map.mp member
  have inside := (occursIn_of_mem_docComments present).stop_le
  have offset : analysis.offset = block.start := (Analysis.isReadingOf_of_ofBlock analysed).offset
  rw [issues, analysed]
  dsimp only
  rw [Issue.ofAnalysis, List.map_map]
  apply List.map_congr_left
  intro item among
  have start := Analysis.start_lt_of_mem_unfinished analysed among
  simp only [Function.comp_apply, Issue.ofUnfinished, Issue.place, ByteRange.shift, Fragment.stop,
    offset] at inside ⊢
  omega

/-- The issues of a comment begin in it. -/
theorem start_of_mem_issues (small : width source ≤ Issue.maxOffset)
    (member : found ∈ all settings source) (table : LineTable) {issue : Issue}
    (reported : issue ∈ found.issues table) :
    found.block.start ≤ issue.range.start ∧ issue.range.start ≤ found.block.stop := by
  cases outcome : found.outcome with
  | ok analysis =>
    have starts := List.mem_map_of_mem (f := (·.range.start)) reported
    rw [map_start_issues small member table outcome] at starts
    obtain ⟨item, among, start⟩ := List.mem_map.mp starts
    obtain ⟨block, present, rfl⟩ := List.mem_map.mp member
    have inside := Analysis.start_lt_of_mem_unfinished outcome among
    simp only [Fragment.stop]
    dsimp only at start
    omega
  | error fault =>
    rw [issues, outcome] at reported
    obtain rfl := List.mem_singleton.mp reported
    obtain ⟨block, present, rfl⟩ := List.mem_map.mp member
    have inside := (occursIn_of_mem_docComments present).stop_le
    rcases parse_text_of_mem_docComments present with ⟨body, parsed⟩ | ⟨unclosed, -⟩
    · simp [Analysis.ofBlock, parsed] at outcome
    · simp only [Analysis.ofBlock, unclosed, Except.error.injEq] at outcome
      subst outcome
      simp only [Issue.ofFault, Issue.place, ByteRange.shift, DelimiterFault.offset,
        Fragment.stop] at inside ⊢
      omega

/-- As long as all offsets fit, the issues of a source come in the order of the text if and only if,
in every comment, nothing that is never closed is nested in anything else that is never closed, save
elements. Of a tag and what it is nested in, and of a reference in an element, the inner one comes
first. -/
theorem issues_sorted_iff (settings : Settings) {source : List Char}
    (small : width source ≤ Issue.maxOffset) :
    (issuesOf source (all settings source)).Pairwise
        (fun issue later => issue.range.start ≤ later.range.start) ↔
      ∀ found ∈ all settings source, ∀ analysis, found.outcome = .ok analysis →
        ∀ inner ∈ analysis.unfinished, ∀ outer ∈ analysis.unfinished, inner.Inside outer →
          inner.IsElement := by
  have apart : (all settings source).Pairwise fun found later =>
      found.block.stop ≤ later.block.start :=
    List.pairwise_map.mpr (pairwise_docComments source)
  have across : (all settings source).Pairwise fun found later =>
      ∀ issue ∈ found.issues (LineTable.ofText source),
        ∀ behind ∈ later.issues (LineTable.ofText source),
          issue.range.start ≤ behind.range.start := by
    refine apart.imp_of_mem fun {found later} member laterMember order issue reported behind => ?_
    intro laterReported
    have upper := (start_of_mem_issues small member _ reported).2
    have lower := (start_of_mem_issues small laterMember _ laterReported).1
    omega
  have within {found : FoundComment} (member : found ∈ all settings source) :
      (found.issues (LineTable.ofText source)).Pairwise
          (fun issue later => issue.range.start ≤ later.range.start) ↔
        ∀ analysis, found.outcome = .ok analysis →
          ∀ inner ∈ analysis.unfinished, ∀ outer ∈ analysis.unfinished, inner.Inside outer →
            inner.IsElement := by
    cases outcome : found.outcome with
    | error fault => simp [issues, outcome]
    | ok analysis =>
      have starts := map_start_issues small member (LineTable.ofText source) outcome
      obtain ⟨block, -, rfl⟩ := List.mem_map.mp member
      rw [← List.pairwise_map (f := fun issue : Issue => issue.range.start) (R := (· ≤ ·)), starts,
        List.pairwise_map]
      simp only [Nat.add_le_add_iff_left, Except.ok.injEq, forall_eq']
      exact Unfinished.pairwise_start_iff (Analysis.pairwise_unfinished outcome)
  rw [issuesOf, List.pairwise_flatMap, and_iff_left across]
  exact forall₂_congr fun found member => within member

/-- A tag at 15 in a reference at 4, neither of them closed: the tag is listed first. -/
theorem issues_sorted_iff_tag_in_reference :
    (issuesOf "/** \x7b@return A <b */".toList
        (all .standard "/** \x7b@return A <b */".toList)).map (·.range.start) = [15, 4] ∧
      ¬(issuesOf "/** \x7b@return A <b */".toList
        (all .standard "/** \x7b@return A <b */".toList)).Pairwise
        (fun issue later => issue.range.start ≤ later.range.start) := by
  refine ⟨by decide +kernel, fun sorted => ?_⟩
  have elements := (issues_sorted_iff .standard (by decide +kernel)).mp sorted
  have analysed : Analysis.ofBlock .standard ⟨0, "/** \x7b@return A <b */".toList⟩ = .ok
      { offset := 0
        comment := ⟨" \x7b@return A <b ".toList, []⟩
        lines :=
          [⟨⟨3, [' '], "\x7b@return A <b ".toList, []⟩,
            [⟨.markup, ⟨4, 6⟩, false⟩, ⟨.markup, ⟨6, 12⟩, false⟩, ⟨.markup, ⟨12, 15⟩, false⟩,
              ⟨.markup, ⟨15, 18⟩, false⟩]⟩]
        unfinished := [⟨.tag "b", ⟨15, 18⟩⟩, ⟨.reference "return", ⟨4, 18⟩⟩]
        passages := [] } := by decide +kernel
  have found : docComments "/** \x7b@return A <b */".toList =
      [⟨0, "/** \x7b@return A <b */".toList⟩] := by decide +kernel
  have member : ⟨⟨0, "/** \x7b@return A <b */".toList⟩, Analysis.ofBlock .standard
      ⟨0, "/** \x7b@return A <b */".toList⟩⟩ ∈ all .standard "/** \x7b@return A <b */".toList := by
    refine List.mem_map.mpr ⟨_, ?_, rfl⟩
    rw [found]
    exact List.mem_singleton_self _
  obtain ⟨name, isTag⟩ := elements _ member _ analysed ⟨.tag "b", ⟨15, 18⟩⟩ (by simp)
    ⟨.reference "return", ⟨4, 18⟩⟩ (by simp) ⟨by simp, by simp⟩
  cases isTag

end FoundComment

end CommentProse
