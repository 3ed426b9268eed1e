import CommentProse.Proofs.Checked.Comment
import CommentProse.Proofs.Delimiters

/-! # The shape of a comment

What a text is read as is told by its shape alone (`DocComment.ReadAs`): whether it begins with the
opener, where the first closer behind the opener is, and what stands behind that. A body ends at its
first closer if the closer occurs nowhere else in the two put together, not even where they meet.
The lines of a comment are the pieces of its body between line feeds
(`DocComment.lines_are_pieces`).
-/

namespace CommentProse

/-! ### Lines -/

/-- Lines that end with line feeds are pieces with the line feeds put back. -/
theorem flatMap_pieceOf {front : List (List Char × List Char)}
    (feeds : ∀ line ∈ front, line.2 = ['\n'] ∨ line.2 = ['\r', '\n']) :
    (front.map Checked.pieceOf).flatMap (· ++ ['\n']) =
      front.flatMap fun line => line.1 ++ line.2 := by
  rw [List.flatMap_map]
  refine List.flatMap_congr fun line member => ?_
  rcases feeds line member with feed | feed <;> simp [Checked.pieceOf, feed]

namespace CommentLine

/-- The line is the piece of a text that begins at `start`, without the carriage return at the end
of the piece, and it is parted into margin and content. -/
structure IsLineOf (text piece : List Char) (start : Nat) (line : CommentLine) : Prop where
  range : line.range = ⟨start, start + width (Checked.withoutReturn piece)⟩
  occurs : (Fragment.mk start (Checked.withoutReturn piece)).OccursIn text
  /-- The margin and the content lie side by side and make up the line. -/
  adjacent : Fragment.Adjacent line.range.start line.range.stop [line.marginFragment, line.content]
  parts : line.margin ++ line.text = Checked.withoutReturn piece
  margin : IsMargin line.text line.margin

/-- A line as it is written is the line of its piece. -/
theorem isLineOf_pieceOf {text : List Char} {start : Nat} {written : List Char × List Char}
    (isWritten : IsWrittenLine written)
    (ends : written.2 = [] ∨ written.2 = ['\r'] ∨ written.2 = ['\n'] ∨ written.2 = ['\r', '\n'])
    (occurs : (Fragment.mk start (written.1 ++ written.2)).OccursIn text) :
    IsLineOf text (Checked.pieceOf written) start
      ⟨start, (splitMargin written.1).1, (splitMargin written.1).2, written.2⟩ := by
  have margin := (@splitMargin_eq_iff written.1 _ _).mp rfl
  have size := width_splitMargin written.1
  refine ⟨?_, ?_, ⟨rfl, rfl, rfl⟩, ?_, margin.2⟩ <;> rw [Checked.withoutReturn_pieceOf isWritten ends]
  · rw [← size, ← Nat.add_assoc]
    rfl
  · exact occurs.part [] written.1 written.2 rfl
  · exact margin.1

end CommentLine

namespace DocComment

/-- The lines of a comment are the pieces of its body between line feeds. -/
theorem lines_are_pieces (comment : DocComment) :
    comment.lines.length = (comment.body.splitOn '\n').length ∧
      ∀ before piece behind line, comment.body.splitOn '\n' = before ++ piece :: behind →
        comment.lines[before.length]? = some line →
        line.IsLineOf comment.source piece
          (width (opener ++ before.flatMap (· ++ ['\n']))) := by
  have placed : comment.lines = CommentLine.place (width opener) (splitLines comment.body) := rfl
  refine ⟨?_, fun before piece behind line cut there => ?_⟩
  · have texts := congrArg List.length (CommentLine.map_text_place (width opener)
      (splitLines comment.body))
    rw [List.length_map, List.length_map] at texts
    rw [placed, texts, Checked.splitOn_eq, List.length_map]
  · obtain ⟨inside, rfl⟩ := List.getElem?_eq_some_iff.mp there
    have around : comment.lines = comment.lines.take before.length ++
        comment.lines[before.length] :: comment.lines.drop (before.length + 1) := by simp
    obtain ⟨front, written, back, split, length, line_eq⟩ :=
      CommentLine.exists_written_of_place (placed.symm.trans around)
    rw [List.length_take_of_le (Nat.le_of_lt inside)] at length
    -- The pieces before this one are those of the lines before it.
    rw [Checked.splitOn_eq, split, List.map_append, List.map_cons] at cut
    obtain ⟨rfl, same⟩ := List.append_inj cut (by simp [length])
    obtain ⟨rfl, -⟩ := List.cons.inj same
    obtain ⟨feeds, ends⟩ := ends_of_splitLines_eq split
    have isWritten := isWrittenLine_of_mem_splitLines comment.body written (by simp [split])
    have occurs := fragment_occursIn (List.getElem_mem inside)
    rw [line_eq] at occurs ⊢
    rw [flatMap_pieceOf feeds, width_append]
    refine CommentLine.isLineOf_pieceOf isWritten ends ?_
    simpa [CommentLine.fragment, CommentLine.source, splitMargin_append] using occurs

/-! ### Delimiters -/

/-- Where the body meets the closer, and nowhere before, a closer begins. -/
def EndsAtFirstCloser (body : List Char) : Prop :=
  ∀ front back, front ++ closer ++ back = body ++ closer → back = []

/-- The first closer of a text is found behind a body that ends at it. -/
theorem splitBefore?_closer_iff {text body closerOn : List Char} :
    splitBefore? closer text = some (body, closerOn) ↔
      ∃ rest, closerOn = closer ++ rest ∧ body ++ (closer ++ rest) = text ∧
        EndsAtFirstCloser body := by
  constructor
  · intro found
    obtain ⟨rfl, ⟨rest, rfl⟩, first⟩ := splitBefore?_eq_some_iff.mp found
    refine ⟨rest, rfl, rfl, fun front back same => ?_⟩
    have sooner := first front (closer ++ back ++ rest)
      (by rw [← List.append_assoc body, ← same]; simp) (by simp)
    have sizes := congrArg List.length same
    simp only [List.length_append] at sizes
    exact List.eq_nil_of_length_eq_zero (by omega)
  · rintro ⟨rest, rfl, rfl, first⟩
    -- What follows the closer has no part in this, so the text may end with the closer.
    have found : splitBefore? closer (body ++ (closer ++ [])) = some (body, closer ++ []) := by
      refine splitBefore?_eq_some_iff.mpr ⟨rfl, List.prefix_append .., ?_⟩
      intro front back cut starts
      obtain ⟨more, rfl⟩ := starts
      rw [List.append_nil, ← List.append_assoc] at cut
      have nothing := first front more cut
      have sizes := congrArg List.length cut
      simp only [List.length_append, nothing, List.length_nil] at sizes
      omega
    exact splitBefore?_append rest found

/-- What a text is read as, by its shape. -/
inductive ReadAs : List Char → Except DelimiterFault DocComment → Prop where
  | missingOpener {text : List Char} (unopened : ¬opener <+: text) :
      ReadAs text (.error .missingOpener)
  | unclosed {behind : List Char} (unclosed : ¬closer <:+: behind) :
      ReadAs (opener ++ behind) (.error .unclosed)
  | textAfterCloser {body blanks rest : List Char} {c : Char} (first : EndsAtFirstCloser body)
      (blank : ∀ d ∈ blanks, isBlank d = true) (visible : isBlank c = false) :
      ReadAs (opener ++ body ++ closer ++ blanks ++ c :: rest)
        (.error (.textAfterCloser (width (opener ++ body ++ closer ++ blanks))))
  | comment {body trailing : List Char} (first : EndsAtFirstCloser body)
      (blank : ∀ d ∈ trailing, isBlank d = true) :
      ReadAs (opener ++ body ++ closer ++ trailing) (.ok ⟨body, trailing⟩)

theorem readAs_parse (text : List Char) : ReadAs text (parse text) := by
  rw [parse]
  split
  · next opens =>
    obtain ⟨behind, rfl⟩ := List.isPrefixOf_iff_prefix.mp opens
    rw [List.drop_left]
    cases found : splitBefore? closer behind with
    | none => exact .unclosed (splitBefore?_eq_none_iff.mp found)
    | some halves =>
      obtain ⟨body, closerOn⟩ := halves
      obtain ⟨trailing, rfl, rfl, first⟩ := splitBefore?_closer_iff.mp found
      dsimp only
      rw [List.drop_left, ← List.append_assoc, ← List.append_assoc]
      split
      · next blank => exact .comment first (List.all_eq_true.mp blank)
      · next other =>
        have blanks : ∀ c ∈ trailing.takeWhile isBlank, isBlank c = true :=
          fun c => List.mem_takeWhile_imp
        have ends : ∀ c ∈ (trailing.dropWhile isBlank).head?, isBlank c = false := head?_dropWhile
        obtain ⟨c, rest, shape⟩ := List.exists_cons_of_ne_nil fun nothing =>
          other (List.all_eq_true.mpr (List.dropWhile_eq_nil_iff.mp nothing))
        have visible : isBlank c = false := ends c (by rw [shape]; rfl)
        have read := @ReadAs.textAfterCloser _ _ rest c first blanks visible
        rwa [← shape, List.append_assoc _ (trailing.takeWhile isBlank),
          List.takeWhile_append_dropWhile] at read
  · next unopened => exact .missingOpener (mt List.isPrefixOf_iff_prefix.mpr unopened)

theorem parse_eq_iff {text : List Char} {result : Except DelimiterFault DocComment} :
    parse text = result ↔ ReadAs text result := by
  constructor
  · rintro rfl
    exact readAs_parse text
  · intro read
    cases read with
    | missingOpener unopened => rw [parse, if_neg (mt List.isPrefixOf_iff_prefix.mp unopened)]
    | unclosed unclosed => exact parse_of_unclosed (splitBefore?_eq_none_iff.mpr unclosed)
    | @textAfterCloser body blanks rest c first blank visible =>
      have opens :
          opener.isPrefixOf (opener ++ (body ++ (closer ++ (blanks ++ c :: rest)))) = true :=
        List.isPrefixOf_iff_prefix.mpr (List.prefix_append ..)
      have found := splitBefore?_closer_iff.mpr ⟨blanks ++ c :: rest, rfl, rfl, first⟩
      have other : ¬allBlank (blanks ++ c :: rest) = true := by simp [allBlank, visible]
      have blanksAre := (@scan_append isBlank blanks (c :: rest) blank (by simp [visible])).1
      simp only [List.append_assoc]
      rw [parse, if_pos opens, List.drop_left, found]
      dsimp only
      rw [List.drop_left, if_neg other, blanksAre]
      simp only [List.append_assoc]
    | comment first blank =>
      refine parse_eq_ok_iff.mpr ⟨rfl, ?_, List.all_eq_true.mpr blank⟩
      exact splitBefore?_closer_iff.mpr ⟨_, rfl, rfl, first⟩

/-- The closer may not share its star with the opener, but a star before it belongs to the body. -/
example : parse "/**/".toList = .error .unclosed ∧ parse "/***/".toList = .ok ⟨[], []⟩ ∧
    parse "/****/".toList = .ok ⟨['*'], []⟩ := by decide

/-- The four parts of a comment lie side by side and make up its text. -/
theorem adjacent_parts (comment : DocComment) :
    Fragment.Adjacent 0 (width comment.source)
      [openerFragment, ⟨width opener, comment.body⟩, comment.closerFragment,
        comment.trailingFragment] :=
  ⟨rfl, rfl, comment.closerFragment_start, rfl, comment.trailingFragment_stop⟩

/-- A text is a comment exactly if it is the opener, a body that ends at its first closer, the
closer and blanks. Then the delimiters and the blanks stand where they are written, and the lines
are the pieces of the body between line feeds, in order and each without one carriage return at its
end, parted into margin and content. Any other text has one fault: it does not begin with the
opener; or no closer occurs behind the opener; or a visible character stands behind the first closer
and blanks, and the fault points at it. -/
theorem comments_decompose (text : List Char) :
    (∀ comment, parse text = .ok comment ↔
      opener ++ comment.body ++ closer ++ comment.trailing = text ∧
        EndsAtFirstCloser comment.body ∧ ∀ c ∈ comment.trailing, isBlank c = true) ∧
    (∀ comment, parse text = .ok comment →
      comment.closerFragment.text = closer ∧ comment.trailingFragment.text = comment.trailing ∧
      Fragment.Adjacent 0 (width text)
        [openerFragment, ⟨width opener, comment.body⟩, comment.closerFragment,
          comment.trailingFragment] ∧
      comment.lines.length = (comment.body.splitOn '\n').length ∧
      ∀ before piece behind line, comment.body.splitOn '\n' = before ++ piece :: behind →
        comment.lines[before.length]? = some line →
        line.IsLineOf text piece (width (opener ++ before.flatMap (· ++ ['\n'])))) ∧
    (parse text = .error .missingOpener ↔ ¬opener <+: text) ∧
    (parse text = .error .unclosed ↔ ∃ behind, opener ++ behind = text ∧ ¬closer <:+: behind) ∧
    ∀ offset, parse text = .error (.textAfterCloser offset) ↔
      ∃ body blanks c rest, opener ++ body ++ closer ++ blanks ++ c :: rest = text ∧
        EndsAtFirstCloser body ∧ (∀ d ∈ blanks, isBlank d = true) ∧ isBlank c = false ∧
        offset = width (opener ++ body ++ closer ++ blanks) := by
  refine ⟨fun comment => ?_, fun comment parsed => ?_, ?_, ?_, fun offset => ?_⟩
  · rw [parse_eq_iff]
    constructor
    · intro read
      cases read with
      | comment first blank => exact ⟨rfl, first, blank⟩
    · rintro ⟨rfl, first, blank⟩
      exact .comment first blank
  · obtain rfl := source_of_parse parsed
    exact ⟨rfl, rfl, comment.adjacent_parts, comment.lines_are_pieces⟩
  · rw [parse_eq_iff]
    constructor
    · intro read
      cases read with
      | missingOpener unopened => exact unopened
    · exact .missingOpener
  · rw [parse_eq_iff]
    constructor
    · intro read
      cases read with
      | unclosed unclosed => exact ⟨_, rfl, unclosed⟩
    · rintro ⟨behind, rfl, unclosed⟩
      exact .unclosed unclosed
  · rw [parse_eq_iff]
    constructor
    · intro read
      cases read with
      | textAfterCloser first blank visible => exact ⟨_, _, _, _, rfl, first, blank, visible, rfl⟩
    · rintro ⟨body, blanks, c, rest, rfl, first, blank, visible, rfl⟩
      exact .textAfterCloser first blank visible

end DocComment

end CommentProse
