import CommentProse.Proofs.Checked.Results

/-! # Every operation is valid

The checked functions compute with offsets alone: they slice, subtract, add and look up by number,
and give no result where one of these operations would fail. Put together they analyse a comment,
build its tree, place its issues and follow its passages back to the source, and none of them ever
fails as long as the numbers reach to the end of the comment (`FoundComment.operations_are_valid`).
Every range that is left in an analysis is one of the text of the comment, wherever this begins.
-/

namespace CommentProse

namespace Checked

/-- Puts to each line the spans that were read in it, with all that `unfinished` covers made markup.
There are spans for every line. -/
def spannedLines? (text : List Char) (unfinished : List Unfinished) :
    List CommentLine → List (List Span) → Option (List SpannedLine)
  | [], _ => some []
  | _ :: _, [] => none
  | line :: lines, spans :: read => do
    let relabelled ← relabel? text unfinished spans
    let later ← spannedLines? text unfinished lines read
    return ⟨line, relabelled⟩ :: later

theorem spannedLines?_eq {text : List Char} {unfinished : List Unfinished}
    {lines : List CommentLine} {read : List (List Span)}
    (spanned : List.Forall₂ (fun line spans => line.content.IsSpannedBy spans) lines read)
    (occur : ∀ line ∈ lines, line.content.OccursIn text)
    (covers : ∀ item ∈ unfinished, item.range.IsRangeOf text) :
    spannedLines? text unfinished lines read =
      some ((lines.zip read).map fun (line, spans) =>
        ⟨line, Unfinished.relabel unfinished spans⟩) := by
  induction spanned with
  | nil => rfl
  | cons here _ ih =>
    obtain ⟨first, later⟩ := List.forall_mem_cons.mp occur
    rw [spannedLines?, relabel?_eq first here covers, ih later]
    rfl

/-- Analyses a comment that was found in a source. -/
def ofBlock? (limit : Nat) (settings : Settings) (block : Fragment) :
    Option (Except DelimiterFault Analysis) := do
  match ← parse? block.text with
  | .error fault => return .error fault
  | .ok comment =>
    let lines ← lines? block.text comment
    let (read, unfinished) ← readLines? settings block.text .none lines
    let spanned ← spannedLines? block.text unfinished lines read
    let passages ← passagesOf? limit settings block.text block.start spanned
    return .ok ⟨block.start, comment, spanned, unfinished, passages⟩

/-- What is given up while the lines of a comment are read covers ranges of every text in which the
lines occur. -/
theorem isRangeOf_unfinished (settings : Settings) {comment : DocComment} {text : List Char}
    (source : comment.source = text) :
    ∀ item ∈ (OpenMarkup.none.readLines settings comment.lines).2, item.range.IsRangeOf text := by
  intro item given
  have stands := OpenMarkup.standsIn_lines_of_mem_readLines settings given
  obtain ⟨first, last⟩ := stands.isBoundary fun line member =>
    source ▸ DocComment.content_occursIn member
  exact .of_boundaries (Nat.le_of_lt (stands.start_lt_stop comment.pairwise_lines)) first last

theorem ofBlock?_eq {limit : Nat} (settings : Settings) {block : Fragment}
    (room : block.stop ≤ limit) :
    ofBlock? limit settings block = some (Analysis.ofBlock settings block) := by
  rw [ofBlock?, parse?_eq, Option.bind_eq_bind, Option.bind_some, Analysis.ofBlock]
  cases parsed : DocComment.parse block.text with
  | error fault => rfl
  | ok comment =>
    have source := DocComment.source_of_parse parsed
    have occur : ∀ line ∈ comment.lines, line.content.OccursIn block.text :=
      fun line member => source ▸ DocComment.content_occursIn member
    have covers := isRangeOf_unfinished settings source
    have read := OpenMarkup.forall₂_readLines settings .none comment.lines
    have spanned : spannedLines? block.text
        (OpenMarkup.none.readLines settings comment.lines).2 comment.lines
        (OpenMarkup.none.readLines settings comment.lines).1 =
        some (SpannedLine.ofLines settings .none comment.lines) :=
      spannedLines?_eq (read.imp fun line spans both => both.1) occur covers
    have analysed : Analysis.ofBlock settings block =
        .ok (Analysis.ofComment settings block.start comment) :=
      Analysis.ofBlock_eq_ok_iff.mpr ⟨comment, parsed, rfl⟩
    have reading := Analysis.isReadingOf_of_ofBlock analysed
    have passages : passagesOf? limit settings block.text block.start
        (SpannedLine.ofLines settings .none comment.lines) = some _ :=
      passagesOf?_eq (fun line => reading.content_occursIn) reading.spanned
        (reading.fit_itemsOf room)
    simp only [lines?_eq source, readLines?_eq settings occur covers, spanned, passages,
      Option.bind_eq_bind, Option.bind_some, Option.pure_def]
    rfl

end Checked

/-! ### Ranges -/

/-- The ranges of a line: its own, those of its parts and, on a tag line, those of the head. -/
def SpannedLine.ranges (line : SpannedLine) : List ByteRange :=
  [line.line.range, line.line.marginFragment.range, line.line.content.range,
    ⟨line.line.stop, line.line.stop + width line.line.terminator⟩] ++
    ((line.tagHead?.map TagHead.parts).getD []).map Fragment.range ++ line.spans.map Span.range

/-- All ranges of an analysis. -/
def Analysis.ranges (analysis : Analysis) : List ByteRange :=
  [DocComment.openerFragment.range, analysis.comment.closerFragment.range,
    analysis.comment.trailingFragment.range] ++
    analysis.lines.flatMap SpannedLine.ranges ++ analysis.unfinished.map Unfinished.range

theorem SpannedLine.isRangeOf {line : SpannedLine} {text : List Char}
    (occurs : line.line.fragment.OccursIn text)
    (spanned : line.line.content.IsSpannedBy line.spans) :
    ∀ range ∈ line.ranges, range.IsRangeOf text := by
  have margin := CommentLine.margin_occursIn occurs
  have content := CommentLine.content_occursIn occurs
  have terminator := CommentLine.terminator_occursIn occurs
  intro range member
  simp only [ranges, List.mem_append, List.mem_cons, List.not_mem_nil, or_false,
    List.mem_map] at member
  rcases member with ((rfl | rfl | rfl | rfl) | ⟨part, among, rfl⟩) | ⟨span, among, rfl⟩
  · exact .of_boundaries (DocComment.start_le_stop line.line) margin.isBoundary_start
      content.isBoundary_stop
  · exact margin.isRangeOf
  · exact content.isRangeOf
  · exact terminator.isRangeOf
  · cases headed : line.tagHead? with
    | none => simp [headed] at among
    | some head =>
      rw [headed] at among
      exact ((TagHead.tiles_of_parse? headed).occursIn content part among).isRangeOf
  · exact spanned.isRangeOf content among

/-- A fault points at a boundary of the text. -/
theorem DocComment.isBoundary_fault {text : List Char} {fault : DelimiterFault}
    (parsed : DocComment.parse text = .error fault) : IsBoundary text fault.offset := by
  have start : IsBoundary text 0 := ⟨[], text, rfl, rfl⟩
  rw [DocComment.parse] at parsed
  split at parsed
  · next opens =>
    obtain ⟨bodyOn, rfl⟩ := List.isPrefixOf_iff_prefix.mp opens
    rw [List.drop_left] at parsed
    split at parsed
    · cases parsed
      exact start
    · next body closerOn split =>
      obtain ⟨trailing, rfl⟩ := List.isPrefixOf_iff_prefix.mp (isPrefixOf_of_splitBefore? split)
      obtain rfl := append_of_splitBefore? split
      rw [List.drop_left] at parsed
      dsimp only at parsed
      split at parsed
      · cases parsed
      · cases parsed
        refine ⟨_, trailing.dropWhile isBlank, ?_, rfl⟩
        simp only [List.append_assoc, List.takeWhile_append_dropWhile]
  · cases parsed
    exact start

namespace Analysis

variable {settings : Settings} {block : Fragment} {analysis : Analysis}

theorem isBoundary_fault {fault : DelimiterFault}
    (faulty : Analysis.ofBlock settings block = .error fault) :
    IsBoundary block.text fault.offset := by
  rw [Analysis.ofBlock] at faulty
  split at faulty
  · next parsed =>
    cases faulty
    exact DocComment.isBoundary_fault parsed
  · cases faulty

theorem isRangeOf_unfinished (analysed : Analysis.ofBlock settings block = .ok analysis) :
    ∀ item ∈ analysis.unfinished, item.range.IsRangeOf block.text := by
  obtain ⟨comment, parsed, rfl⟩ := ofBlock_eq_ok_iff.mp analysed
  exact Checked.isRangeOf_unfinished settings (DocComment.source_of_parse parsed)

theorem isRangeOf (analysed : Analysis.ofBlock settings block = .ok analysis) :
    ∀ range ∈ analysis.ranges, range.IsRangeOf block.text := by
  have reading := isReadingOf_of_ofBlock analysed
  intro range member
  simp only [ranges, List.mem_append, List.mem_cons, List.not_mem_nil, or_false, List.mem_flatMap,
    List.mem_map] at member
  rcases member with ((rfl | rfl | rfl) | ⟨line, among, inside⟩) | ⟨item, given, rfl⟩
  · exact (reading.source ▸ analysis.comment.openerFragment_occursIn).isRangeOf
  · exact (reading.source ▸ analysis.comment.closerFragment_occursIn).isRangeOf
  · exact (reading.source ▸ analysis.comment.trailingFragment_occursIn).isRangeOf
  · exact SpannedLine.isRangeOf (reading.fragment_occursIn among) (reading.spanned line among)
      range inside
  · exact isRangeOf_unfinished analysed item given

end Analysis

/-- Whatever stands in a comment and whatever the settings are, a fault points at a boundary of the
comment, the tree is made without an invalid slice or lookup, and all ranges of the analysis are
ranges of the comment. Analysis and issues also name offsets of the source, and `limit` is the
largest number there is for these. Wherever in the source the comment begins, as long as its end is
a number and the lines of the source can be counted, they are made without an invalid slice,
subtraction or lookup and without a sum that is too large, and every lookup in a passage is
answered. So is every lookup in a provenance with runs that end before the largest number. -/
theorem FoundComment.operations_are_valid (settings : Settings) (source : List Char)
    (block : Fragment) :
    (∀ fault, Analysis.ofBlock settings block = .error fault →
      IsBoundary block.text fault.offset) ∧
    (∀ analysis, Analysis.ofBlock settings block = .ok analysis →
      Checked.tree? block.text analysis = some (SyntaxTree.ofAnalysis analysis) ∧
      ∀ range ∈ analysis.ranges, range.IsRangeOf block.text) ∧
    (∀ limit, block.stop ≤ limit → width source < limit →
      Checked.ofBlock? limit settings block = some (Analysis.ofBlock settings block) ∧
      Checked.issues? limit (.ofText source) ⟨block, Analysis.ofBlock settings block⟩ =
        some (FoundComment.issues (.ofText source) ⟨block, Analysis.ofBlock settings block⟩) ∧
      ∀ analysis, Analysis.ofBlock settings block = .ok analysis →
        ∀ passage ∈ analysis.passages, Checked.RunTable.Answers limit passage.provenance) ∧
    ∀ (limit : Nat) (provenance : Provenance), (∀ run ∈ provenance.runs, run.stop < limit) →
      Checked.RunTable.Answers limit provenance := by
  refine ⟨fun fault => Analysis.isBoundary_fault, ?_, ?_,
    fun limit provenance => Checked.RunTable.Answers.of_stop_lt⟩
  · intro analysis analysed
    exact ⟨Checked.tree?_eq (Analysis.isReadingOf_of_ofBlock analysed),
      Analysis.isRangeOf analysed⟩
  · intro limit room counted
    refine ⟨Checked.ofBlock?_eq settings room, Checked.issues?_eq counted ?_ ?_, ?_⟩
    · intro analysis analysed item given
      have valid := Analysis.isRangeOf_unfinished analysed item given
      have within := Nat.add_le_add_left valid.within block.start
      rw [(Analysis.isReadingOf_of_ofBlock analysed).offset]
      exact ⟨valid.order, within.trans room⟩
    · intro fault faulty
      have within := (Analysis.isBoundary_fault faulty).le_width
      exact (Nat.add_le_add_left within block.start).trans room
    · intro analysis analysed passage member
      have reading := Analysis.isReadingOf_of_ofBlock analysed
      exact .of_stop_lt (reading.fits_of_mem_passages room member).stop_lt

/-- A margin of a wide blank, an unfinished tag before a carriage return and a wide argument, with
numbers of 64 bits; and a fault behind a wide character. -/
theorem FoundComment.operations_are_valid_wide :
    (∃ analysis, Analysis.ofBlock .standard
        ⟨5, "/** é <b\r\n\u3000* @param ñ x*/".toList⟩ = .ok analysis ∧
      Checked.tree? "/** é <b\r\n\u3000* @param ñ x*/".toList analysis =
        some (SyntaxTree.ofAnalysis analysis) ∧
      ⟨23, 25⟩ ∈ analysis.ranges ∧
      ByteRange.IsRangeOf "/** é <b\r\n\u3000* @param ñ x*/".toList ⟨23, 25⟩ ∧
      Checked.ofBlock? (UInt64.size - 1) .standard
        ⟨5, "/** é <b\r\n\u3000* @param ñ x*/".toList⟩ = some (.ok analysis) ∧
      Checked.RunTable.Answers (UInt64.size - 1) ⟨[⟨9, 2⟩]⟩) ∧
    Analysis.ofBlock .standard ⟨5, "/** é */ b".toList⟩ = .error (.textAfterCloser 10) ∧
    IsBoundary "/** é */ b".toList 10 ∧
    Checked.RunTable.Answers (UInt64.size - 1) ⟨[⟨10, 3⟩, ⟨20, 5⟩]⟩ := by
  have analysed : Analysis.ofBlock .standard
      ⟨5, "/** é <b\r\n\u3000* @param ñ x*/".toList⟩ = .ok
      { offset := 5
        comment := ⟨" é <b\r\n\u3000* @param ñ x".toList, []⟩
        lines :=
          [⟨⟨3, [' '], "é <b".toList, ['\r', '\n']⟩,
            [⟨.prose, ⟨4, 7⟩, false⟩, ⟨.markup, ⟨7, 9⟩, false⟩]⟩,
          ⟨⟨11, "\u3000* ".toList, "@param ñ x".toList, []⟩,
            [⟨.markup, ⟨16, 17⟩, false⟩, ⟨.tagName, ⟨17, 22⟩, false⟩, ⟨.markup, ⟨22, 23⟩, false⟩,
              ⟨.argument, ⟨23, 25⟩, false⟩, ⟨.prose, ⟨25, 27⟩, false⟩]⟩]
        unfinished := [⟨.tag "b", ⟨7, 9⟩⟩]
        passages := [⟨5, 0, .description, ['é'], ⟨[⟨9, 2⟩]⟩⟩,
          ⟨5, 1, .tag 0 "param", ['x'], ⟨[⟨31, 1⟩]⟩⟩] } := by decide +kernel
  have faulty : Analysis.ofBlock .standard ⟨5, "/** é */ b".toList⟩ =
      .error (.textAfterCloser 10) := by decide +kernel
  obtain ⟨-, valid, placed, bounded⟩ := operations_are_valid .standard [] ⟨5, _⟩
  obtain ⟨boundary, -, -, -⟩ := operations_are_valid .standard [] ⟨5, "/** é */ b".toList⟩
  obtain ⟨tree, ranges⟩ := valid _ analysed
  obtain ⟨made, -, answers⟩ := placed (UInt64.size - 1) (by decide +kernel) (by decide)
  refine ⟨⟨_, analysed, tree, by decide +kernel, ranges _ (by decide +kernel),
    made.trans (congrArg some analysed), answers _ analysed _ List.mem_cons_self⟩, faulty,
    boundary _ faulty, bounded _ _ (by decide)⟩

/-- At the largest number itself there is no room for the prose of a comment. -/
example :
    Checked.ofBlock? (UInt64.size - 1) .standard ⟨UInt64.size - 1, "/** a */".toList⟩ = none := by
  decide +kernel

end CommentProse
