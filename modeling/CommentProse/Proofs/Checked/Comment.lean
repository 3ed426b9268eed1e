import CommentProse.Proofs.Checked.Text
import CommentProse.Proofs.Comment.TagLine
import CommentProse.Proofs.Comment.Wrapping

/-! # Checked reading of a comment

The delimiters, lines, margins and tag heads of a comment, computed as offsets into its text with
checked operations. Every range is sliced where it is found, so a range that is out of order, out of
bounds or off a boundary would leave the comment without a result. Each function gives what the
unchecked one gives.
-/

namespace CommentProse

namespace Checked

/-! ### Delimiters -/

/-- The comment of which the closer stands from `close` to `closed`, with its delimiters sliced. -/
def delimited? (text : List Char) (close closed : Nat) : Option DocComment := do
  let _ ← range? text 0 (width opener)
  let body ← slice? text ⟨width opener, close⟩
  let _ ← range? text close closed
  let trailing ← slice? text ⟨closed, width text⟩
  return ⟨body, trailing⟩

theorem delimited?_eq (comment : DocComment) :
    delimited? comment.source comment.closerFragment.start comment.closerFragment.stop =
      some comment := by
  have opening : range? comment.source 0 (width opener) = some ⟨0, width opener⟩ :=
    range?_eq comment.openerFragment_occursIn.isRangeOf
  have body := slice?_eq comment.body_occursIn comment.closerFragment_start.symm
  have closing : range? comment.source comment.closerFragment.start comment.closerFragment.stop =
      some ⟨_, _⟩ := range?_eq comment.closerFragment_occursIn.isRangeOf
  have trailing : slice? comment.source ⟨comment.closerFragment.stop, width comment.source⟩ =
      some comment.trailing :=
    slice?_eq comment.trailingFragment_occursIn comment.trailingFragment_stop
  rw [delimited?, opening, body, closing, trailing]
  rfl

/-- Reads a comment. -/
def parse? (text : List Char) : Option (Except DelimiterFault DocComment) :=
  if opener.isPrefixOf text then do
    let bodyOn ← from? text (width opener)
    match offsetOf? closer bodyOn with
    | none => return .error .unclosed
    | some size =>
      let close := width opener + size
      let closed := close + width closer
      let behind ← from? text closed
      match offsetWhere? (!isBlank ·) behind with
      | some size => return .error (.textAfterCloser (closed + size))
      | none =>
        let comment ← delimited? text close closed
        return .ok comment
  else return .error .missingOpener

theorem parse?_eq (text : List Char) : parse? text = some (DocComment.parse text) := by
  rw [parse?, DocComment.parse]
  split
  · next opens =>
    obtain ⟨bodyOn, rfl⟩ := List.isPrefixOf_iff_prefix.mp opens
    rw [List.drop_left]
    simp only [from?_append, Option.bind_eq_bind, Option.bind_some, offsetOf?]
    cases split : splitBefore? closer bodyOn with
    | none => rfl
    | some halves =>
      obtain ⟨body, closerOn⟩ := halves
      obtain ⟨trailing, rfl⟩ := List.isPrefixOf_iff_prefix.mp (isPrefixOf_of_splitBefore? split)
      obtain rfl := append_of_splitBefore? split
      have behind := from?_append (opener ++ body ++ closer) trailing
      have comment := delimited?_eq ⟨body, trailing⟩
      simp only [DocComment.source, DocComment.closerFragment, Fragment.stop, width_append,
        List.append_assoc, ← Nat.add_assoc] at behind comment
      simp only [Option.map_some, behind, Option.bind_some, List.drop_left, offsetWhere?]
      cases blank : allBlank trailing with
      | true =>
        have nothing : trailing.any (!isBlank ·) = false := by
          simpa [allBlank] using blank
        simp only [nothing, comment, Option.bind_some, Bool.false_eq_true, if_false, if_true]
        rfl
      | false =>
        have something : trailing.any (!isBlank ·) = true := by
          simpa [allBlank] using blank
        simp only [something, if_true, Bool.not_not, Bool.false_eq_true, if_false, width_append]
        rfl
  · rfl

/-! ### Lines -/

/-- The width of the margin of a line. -/
def marginWidth? (line : List Char) : Option Nat := do
  let indent ← minus? (width line) (width (line.dropWhile isBlank))
  match ← from? line indent with
  | '*' :: _ =>
    match ← from? line (indent + 1) with
    | ' ' :: _ => return indent + 1 + 1
    | _ => return indent + 1
  | _ => return indent

theorem marginWidth?_eq (line : List Char) :
    marginWidth? line = some (width (splitMargin line).1) := by
  have whole := List.takeWhile_append_dropWhile (p := isBlank) (l := line)
  rw [marginWidth?, splitMargin]
  generalize line.takeWhile isBlank = indent at whole ⊢
  generalize line.dropWhile isBlank = visible at whole ⊢
  subst whole
  have star (content : List Char) :
      from? (indent ++ '*' :: content) (width indent + 1) = some content := by
    have cut := from?_append (indent ++ ['*']) content
    rw [width_append, List.append_assoc] at cut
    exact cut
  rw [width_append, Nat.add_comm, minus?_add_left]
  simp only [Option.bind_eq_bind, Option.bind_some, from?_append]
  cases visible with
  | nil => rfl
  | cons c content =>
    by_cases starred : c = '*'
    · subst starred
      have single : '*'.utf8Size = 1 := rfl
      have space : ' '.utf8Size = 1 := rfl
      simp only [star, Option.bind_some]
      cases content with
      | nil => simp [single]
      | cons d content =>
        by_cases spaced : d = ' '
        · simp [spaced, single, space]
        · simp [spaced, single]
    · simp [starred]

/-- The line from `start` to `stop` of which the next one begins at `next`. -/
def line? (text : List Char) (start stop next : Nat) : Option CommentLine := do
  let line ← slice? text ⟨start, stop⟩
  let size ← marginWidth? line
  let margin ← slice? text ⟨start, start + size⟩
  let content ← slice? text ⟨start + size, stop⟩
  let terminator ← slice? text ⟨stop, next⟩
  return ⟨start, margin, content, terminator⟩

/-- A piece between line feeds without the carriage return at its end. -/
def withoutReturn (piece : List Char) : List Char :=
  if piece.getLast? = some '\r' then piece.dropLast else piece

/-- The lines that pieces between line feeds make up. The first begins at `start`, and the last one
runs up to `close`. -/
def placeLines? (text : List Char) (close start : Nat) :
    List (List Char) → Option (List CommentLine)
  | [] => some []
  | piece :: pieces => do
    let next := start + (width piece + 1)
    let line ← line? text start (start + width (withoutReturn piece))
      (if pieces.isEmpty then close else next)
    let later ← placeLines? text close next pieces
    return line :: later

/-- The lines of a comment. -/
def lines? (text : List Char) (comment : DocComment) : Option (List CommentLine) := do
  let close := comment.closerFragment.start
  let body ← slice? text ⟨width opener, close⟩
  placeLines? text close (width opener) (body.splitOn '\n')

/-- A line as it stands between line feeds. -/
def pieceOf (written : List Char × List Char) : List Char :=
  written.1 ++ written.2.filter (· ≠ '\n')

/-- A text is cut at the same line feeds, whether or not carriage returns go with them. -/
theorem splitOn_eq (text : List Char) :
    text.splitOn '\n' = (splitLines text).map pieceOf := by
  induction text with
  | nil => rfl
  | cons c text ih =>
    rw [List.splitOn] at ih ⊢
    rw [List.splitOnP_cons_eq_if_modifyHead, ih]
    by_cases feed : c = '\n'
    · subst feed
      simp [splitLines, pieceOf]
    · cases split : splitLines text with
      | nil => exact absurd split (splitLines_ne_nil text)
      | cons first lines =>
        rw [splitLines_cons feed split, if_neg (by simpa using feed)]
        split
        · next carriage =>
          obtain ⟨rfl, bare, -⟩ := carriage
          simp [pieceOf, bare]
        · simp [pieceOf]

variable {text : List Char}

/-- A written line is there with its margin, its content and its terminator. -/
private theorem line?_eq {start : Nat} {written : List Char × List Char}
    (occurs : (Fragment.mk start (written.1 ++ written.2)).OccursIn text) :
    line? text start (start + width written.1) (start + width written.1 + width written.2) =
      some ⟨start, (splitMargin written.1).1, (splitMargin written.1).2, written.2⟩ := by
  obtain ⟨line, terminator⟩ := written
  have whole := splitMargin_append line
  have size := CommentLine.width_splitMargin line
  have margin := marginWidth?_eq line
  dsimp only at occurs ⊢
  generalize splitMargin line = halves at whole size margin ⊢
  obtain ⟨front, content⟩ := halves
  dsimp only at whole size margin ⊢
  have lineThere : slice? text ⟨start, start + width line⟩ = some line :=
    slice?_part occurs [] line terminator rfl rfl rfl
  have marginThere : slice? text ⟨start, start + width front⟩ = some front :=
    slice?_part occurs [] front (content ++ terminator) (by simp [← whole]) rfl rfl
  have contentThere : slice? text ⟨start + width front, start + width line⟩ = some content :=
    slice?_part occurs front content terminator (by simp [← whole]) rfl (by omega)
  have terminatorThere : slice? text ⟨start + width line, start + width line + width terminator⟩ =
      some terminator :=
    slice?_part occurs line terminator [] (by simp) rfl rfl
  simp only [line?, Option.bind_eq_bind, lineThere, margin, marginThere, contentThere,
    terminatorThere, Option.bind_some, Option.pure_def]

/-- Between line feeds stands a line without its carriage return. -/
theorem withoutReturn_pieceOf {written : List Char × List Char}
    (isWritten : IsWrittenLine written)
    (ends : written.2 = [] ∨ written.2 = ['\r'] ∨ written.2 = ['\n'] ∨ written.2 = ['\r', '\n']) :
    withoutReturn (pieceOf written) = written.1 := by
  obtain ⟨line, terminator⟩ := written
  have carriage := isWritten.carriage
  dsimp only at ends carriage
  rcases ends with rfl | rfl | rfl | rfl <;> simp_all [withoutReturn, pieceOf]

private theorem placeLines?_eq {close start : Nat} {lines : List (List Char × List Char)}
    {last : List Char × List Char}
    (written : ∀ line ∈ lines ++ [last], IsWrittenLine line)
    (feeds : ∀ line ∈ lines, line.2 = ['\n'] ∨ line.2 = ['\r', '\n'])
    (final : last.2 = [] ∨ last.2 = ['\r'])
    (occurs : (Fragment.mk start
      ((lines ++ [last]).flatMap fun line => line.1 ++ line.2)).OccursIn text)
    (meets : start + width ((lines ++ [last]).flatMap fun line => line.1 ++ line.2) = close) :
    placeLines? text close start ((lines ++ [last]).map pieceOf) =
      some (CommentLine.place start (lines ++ [last])) := by
  induction lines generalizing start with
  | nil =>
    have here := @line?_eq text start last (by simpa using occurs)
    have size : start + width last.1 + width last.2 = close := by
      simpa [Nat.add_assoc] using meets
    rw [size] at here
    have bare := withoutReturn_pieceOf (written last (by simp)) (by tauto)
    simp only [List.nil_append, List.map_cons, List.map_nil, placeLines?, bare, List.isEmpty_nil,
      if_true, here]
    rfl
  | cons line lines ih =>
    have feed := feeds line List.mem_cons_self
    have parts : (line :: lines ++ [last]).flatMap (fun line => line.1 ++ line.2) =
        line.1 ++ line.2 ++ (lines ++ [last]).flatMap (fun line => line.1 ++ line.2) := by
      simp
    rw [parts] at occurs meets
    have here := @line?_eq text start line (occurs.part [] _ _ rfl)
    have bare := withoutReturn_pieceOf (written line (by simp)) (by tauto)
    -- A piece has the carriage return of its line, and the line feed is one byte more.
    have next : start + (width (pieceOf line) + 1) = start + width line.1 + width line.2 := by
      have feedWidth : '\n'.utf8Size = 1 := rfl
      have carriageWidth : '\r'.utf8Size = 1 := rfl
      rcases feed with feed | feed <;> simp [pieceOf, feed, feedWidth, carriageWidth] <;> omega
    have later := @ih (start + width line.1 + width line.2)
      (fun other member => written other (List.mem_cons_of_mem _ member))
      (fun other member => feeds other (List.mem_cons_of_mem _ member))
      (by
        have behind := occurs.part (line.1 ++ line.2) _ [] (List.append_nil _).symm
        rwa [width_append, ← Nat.add_assoc] at behind)
      (by rw [← meets, width_append, width_append]; simp only [Nat.add_assoc])
    have more : ((lines ++ [last]).map pieceOf).isEmpty = false := by simp
    simp only [List.cons_append, List.map_cons, placeLines?, bare, more, Bool.false_eq_true,
      if_false, next, here, later, Option.bind_eq_bind, Option.bind_some]
    rfl

/-- The lines of a comment are there with all their parts. -/
theorem lines?_eq {comment : DocComment} (source : comment.source = text) :
    lines? text comment = some comment.lines := by
  obtain ⟨lines, last, split, feeds, final⟩ := splitLines_eq_append comment.body
  have written := isWrittenLine_of_mem_splitLines comment.body
  have whole := flatMap_splitLines comment.body
  have inside : (Fragment.mk (width opener) comment.body).OccursIn text :=
    source ▸ comment.body_occursIn
  have placed := @placeLines?_eq text comment.closerFragment.start (width opener) lines last
    (by rwa [← split]) feeds (by split at final <;> simp [final])
    (by rwa [← split, whole]) (by rw [← split, whole, comment.closerFragment_start])
  rw [lines?, comment.closerFragment_start, slice?_eq inside rfl, Option.bind_eq_bind,
    Option.bind_some, splitOn_eq, ← comment.closerFragment_start, split, placed,
    DocComment.lines, CommentLine.ofText, split]

/-! ### Tag heads -/

/-- The head of a tag line of which the name stands from `nameStart` to `nameStop`. -/
def ofName? (text : List Char) (start nameStart nameStop stop : Nat) : Option TagHead := do
  let marker ← fragment? text start nameStart
  let name ← fragment? text nameStart nameStop
  let rest ← slice? text ⟨nameStop, stop⟩
  let gapWidth ← minus? (width rest) (width (rest.dropWhile isBlank))
  let wordOn ← from? rest gapWidth
  let limit ← minus? (width rest) gapWidth
  let wordWidth := (offsetWhere? isBlank wordOn).getD limit
  if BlockTag.takesArgument (String.ofList name.text) && wordWidth != 0 then
    let wordStart := nameStop + gapWidth
    let wordStop := wordStart + wordWidth
    let gap ← fragment? text nameStop wordStart
    let word ← fragment? text wordStart wordStop
    let body ← fragment? text wordStop stop
    return ⟨marker, name, gap, some word, body⟩
  else
    let gap ← fragment? text nameStop nameStop
    let body ← fragment? text nameStop stop
    return ⟨marker, name, gap, none, body⟩

/-- The head of the line with its content from `start` to `stop`, if it is a tag line. -/
def tagHead? (text : List Char) (start stop : Nat) : Option (Option TagHead) := do
  let content ← slice? text ⟨start, stop⟩
  let visible := content.dropWhile isBlank
  let indent ← minus? (width content) (width visible)
  match visible with
  | '@' :: behind =>
    let nameWidth := (offsetWhere? (!isNameChar ·) behind).getD (width behind)
    let name ← upTo? behind nameWidth
    if name.isEmpty then return none
    else
      let nameStart := start + indent + 1
      let head ← ofName? text start nameStart (nameStart + nameWidth) stop
      return some head
  | _ => return none

private theorem ofName?_eq {marker nameOn : Fragment} (meets : nameOn.start = marker.stop)
    (occurs : (Fragment.mk marker.start (marker.text ++ nameOn.text)).OccursIn text) :
    ofName? text marker.start nameOn.start
      (nameOn.start + width (nameOn.text.takeWhile isNameChar)) nameOn.stop =
        some (TagHead.ofName marker nameOn) := by
  have markerOccurs : marker.OccursIn text := occurs.part [] marker.text nameOn.text rfl
  have nameOnOccurs : nameOn.OccursIn text := by
    have part := occurs.part marker.text nameOn.text [] (List.append_nil _).symm
    rw [Fragment.stop] at meets
    rwa [← meets] at part
  have markerThere : fragment? text marker.start nameOn.start = some marker := by
    rw [meets]
    exact fragment?_of_occursIn markerOccurs
  obtain ⟨name, rest, nameIs, named⟩ := exists_spannedWhile nameOnOccurs isNameChar
  obtain ⟨gap, wordOn, gapIs, gapped⟩ := exists_spannedWhile named.backOccurs isBlank
  obtain ⟨word, body, wordIs, worded⟩ := exists_spannedWhile gapped.backOccurs (!isBlank ·)
  have restThere : slice? text ⟨rest.start, nameOn.stop⟩ = some rest.text := by
    rw [← named.stop]
    exact slice?_of_occursIn named.backOccurs
  have wordWidth : (offsetWhere? isBlank wordOn.text).getD (width wordOn.text) =
      width word.text := by
    rw [offsetWhere?_getD, worded.taken]
  have positive : (width word.text != 0) = !word.isEmpty := by
    rw [Fragment.isEmpty]
    cases word.text with
    | nil => rfl
    | cons c word => simp [Nat.ne_of_gt c.utf8Size_pos]
  simp only [ofName?, TagHead.ofName, nameIs, gapIs, wordIs, markerThere, named.taken,
    named.start_add_width, named.fragment?_front, restThere, gapped.left, gapped.minus?_back,
    gapped.from?_back, gapped.minus?_front, gapped.start_add_width, wordWidth,
    worded.start_add_width, positive, Option.bind_eq_bind, Option.bind_some]
  split
  · have bodyThere : fragment? text body.start nameOn.stop = some body := by
      rw [← named.stop, ← gapped.stop]
      exact worded.fragment?_back
    simp only [gapped.fragment?_front, worded.fragment?_front, bodyThere, Option.bind_some]
    rfl
  · -- Without an argument the gap is empty, and the blanks belong to the body.
    have nothing : fragment? text rest.start rest.start = some ⟨rest.start, []⟩ :=
      fragment?_part named.backOccurs [] [] rest.text rfl rfl rfl
    simp only [nothing, named.fragment?_back, Option.bind_some]
    rfl

/-- Whether a line is a tag line is found out without fail, and so are the parts of its head. -/
theorem tagHead?_eq {content : Fragment} (occurs : content.OccursIn text) :
    tagHead? text content.start content.stop = some (TagHead.parse? content) := by
  obtain ⟨start, line⟩ := content
  obtain ⟨indent, indentIs⟩ : ∃ indent, line.takeWhile isBlank = indent := ⟨_, rfl⟩
  obtain ⟨visible, visibleIs⟩ : ∃ visible, line.dropWhile isBlank = visible := ⟨_, rfl⟩
  have whole : indent ++ visible = line := by
    rw [← indentIs, ← visibleIs, List.takeWhile_append_dropWhile]
  have indentWidth : minus? (width line) (width visible) = some (width indent) := by
    rw [← visibleIs, minus?_dropWhile, indentIs]
  have lineThere : slice? text ⟨start, start + width line⟩ = some line :=
    slice?_eq occurs rfl
  simp only [tagHead?, TagHead.parse?, Fragment.spanWhile, Fragment.takeWhile, Fragment.dropWhile,
    Fragment.isEmpty, Fragment.stop, indentIs, visibleIs, lineThere, indentWidth,
    Option.bind_eq_bind, Option.bind_some]
  cases visible with
  | nil => rfl
  | cons c behind =>
    by_cases sign : c = '@'
    · subst sign
      have nameWidth : (offsetWhere? (!isNameChar ·) behind).getD (width behind) =
          width (behind.takeWhile isNameChar) := by
        simpa using offsetWhere?_getD (!isNameChar ·) behind
      have single : width ['@'] = 1 := rfl
      have head := @ofName?_eq text ⟨start, indent ++ ['@']⟩ ⟨start + width indent + 1, behind⟩
        (by simp [Fragment.stop, single, Nat.add_assoc]) (by simpa [whole] using occurs)
      have stop : start + width indent + 1 + width behind = start + width line := by
        rw [← whole, width_append, width_cons, Nat.add_assoc, Nat.add_assoc]
        rfl
      dsimp only [Fragment.stop] at head
      simp only [nameWidth, upTo?_takeWhile, Option.bind_some, single, stop] at head ⊢
      split
      · rfl
      · rw [head]
        rfl
    · simp [sign]

end Checked

end CommentProse
