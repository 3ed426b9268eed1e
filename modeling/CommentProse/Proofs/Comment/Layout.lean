import CommentProse.Comment.Basic
import CommentProse.Proofs.Text.Places

/-! # The layout of a comment

A text that parses as a comment is the comment written back. Its lines stand one after the other
between the delimiters, and each but the last ends with a line feed; so every line occurs in the
text at its own offset, lines do not touch, and what stands right behind the content of a line is a
blank character or the closer.
-/

namespace CommentProse

theorem splitLines_cons {c : Char} {text line terminator : List Char}
    {lines : List (List Char × List Char)} (visible : c ≠ '\n')
    (split : splitLines text = (line, terminator) :: lines) :
    splitLines (c :: text) =
      (if c = '\r' ∧ line = [] ∧ terminator.head? ≠ some '\r' then ([], '\r' :: terminator)
        else (c :: line, terminator)) :: lines := by
  rw [splitLines, if_neg visible, split]
  dsimp only
  split <;> rfl

/-- The terminator of a text that is a single line. -/
private theorem splitLines_single {c : Char} {text line terminator : List Char}
    (visible : c ≠ '\n') (split : splitLines text = [(line, terminator)])
    (final : terminator = if text.getLast? = some '\r' then ['\r'] else []) :
    ∃ last, splitLines (c :: text) = [last] ∧
      last.2 = if (c :: text).getLast? = some '\r' then ['\r'] else [] := by
  refine ⟨_, splitLines_cons visible split, ?_⟩
  have whole := flatMap_splitLines text
  rw [split] at whole
  cases text with
  | nil =>
    simp only [List.flatMap_cons, List.flatMap_nil, List.append_nil,
      List.append_eq_nil_iff] at whole
    obtain ⟨rfl, rfl⟩ := whole
    by_cases carriage : c = '\r' <;> simp [carriage]
  | cons d text =>
    rw [List.getLast?_cons_cons, ← final]
    split
    · next carriage =>
      obtain ⟨rfl, rfl, bare⟩ := carriage
      split at final
      · rw [final] at bare
        exact absurd rfl bare
      · simp [final] at whole
    · rfl

/-- Only the last line lacks a line feed; a carriage return at the end of the text is all that can
be left behind it. -/
theorem splitLines_eq_append (text : List Char) :
    ∃ lines last, splitLines text = lines ++ [last] ∧
      (∀ line ∈ lines, line.2 = ['\n'] ∨ line.2 = ['\r', '\n']) ∧
      last.2 = if text.getLast? = some '\r' then ['\r'] else [] := by
  induction text with
  | nil => exact ⟨[], ([], []), rfl, by simp, rfl⟩
  | cons c text ih =>
    obtain ⟨lines, last, split, feeds, final⟩ := ih
    by_cases feed : c = '\n'
    · refine ⟨([], ['\n']) :: lines, last, by rw [splitLines, if_pos feed, split]; rfl, ?_, ?_⟩
      · intro line member
        rcases List.mem_cons.mp member with rfl | later
        · exact .inl rfl
        · exact feeds line later
      · rw [final, feed]
        cases text <;> simp
    · cases lines with
      | nil =>
        obtain ⟨single, shape, terminator⟩ := splitLines_single feed split final
        exact ⟨[], single, shape, by simp, terminator⟩
      | cons first lines =>
        obtain ⟨line, terminator⟩ := first
        refine ⟨_ :: lines, last, splitLines_cons feed split, ?_, ?_⟩
        · intro other member
          rcases List.mem_cons.mp member with rfl | behind
          · have ends := feeds (line, terminator) List.mem_cons_self
            dsimp only at ends
            split
            · next carriage => rcases ends with rfl | rfl <;> simp_all
            · exact ends
          · exact feeds other (List.mem_cons_of_mem _ behind)
        · rw [final]
          cases text with
          | nil => simp [splitLines] at split
          | cons d text => rw [List.getLast?_cons_cons]

/-- Each line before the last one ends with a line feed. -/
theorem ends_of_splitLines_eq {text : List Char} {front back : List (List Char × List Char)}
    {written : List Char × List Char} (split : splitLines text = front ++ written :: back) :
    (∀ earlier ∈ front, earlier.2 = ['\n'] ∨ earlier.2 = ['\r', '\n']) ∧
      (written.2 = [] ∨ written.2 = ['\r'] ∨ written.2 = ['\n'] ∨ written.2 = ['\r', '\n']) := by
  obtain ⟨lines, last, shape, feeds, final⟩ := splitLines_eq_append text
  rw [split] at shape
  constructor
  · intro earlier member
    have others := congrArg List.dropLast shape
    rw [List.dropLast_append_of_ne_nil (by simp), List.dropLast_concat] at others
    exact feeds earlier (others ▸ List.mem_append_left _ member)
  · have among : written ∈ lines ++ [last] := shape ▸ by simp
    rw [List.mem_append, List.mem_singleton] at among
    rcases among with earlier | rfl
    · rcases feeds written earlier with feed | feed <;> simp [feed]
    · split at final <;> simp [final]

namespace CommentLine

/-- The line with its terminator, in place. -/
def fragment (line : CommentLine) : Fragment := ⟨line.start, line.source⟩

theorem place_cons (start : Nat) (written : List Char × List Char)
    (lines : List (List Char × List Char)) :
    place start (written :: lines) =
      ⟨start, (splitMargin written.1).1, (splitMargin written.1).2, written.2⟩ ::
        place (start + width written.1 + width written.2) lines := rfl

theorem place_append (start : Nat) (front back : List (List Char × List Char)) :
    place start (front ++ back) =
      place start front ++
        place (start + width (front.flatMap fun line => line.1 ++ line.2)) back := by
  induction front generalizing start with
  | nil => rfl
  | cons written front ih =>
    simp only [List.cons_append, place_cons, ih, List.flatMap_cons, width_append, Nat.add_assoc]

theorem map_text_place (start : Nat) (lines : List (List Char × List Char)) :
    (place start lines).map text = lines.map fun line => (splitMargin line.1).2 := by
  induction lines generalizing start with
  | nil => rfl
  | cons written lines ih => rw [place_cons, List.map_cons, List.map_cons, ih]

/-- A line in place is one of the lines as they are written. -/
theorem exists_written_of_place {start : Nat} {lines : List (List Char × List Char)}
    {before behind : List CommentLine} {line : CommentLine}
    (placed : place start lines = before ++ line :: behind) :
    ∃ front written back, lines = front ++ written :: back ∧ before.length = front.length ∧
      line = ⟨start + width (front.flatMap fun line => line.1 ++ line.2),
        (splitMargin written.1).1, (splitMargin written.1).2, written.2⟩ := by
  induction before generalizing start lines with
  | nil =>
    cases lines with
    | nil => simp [place] at placed
    | cons written lines =>
      rw [place_cons] at placed
      obtain ⟨rfl, rfl⟩ := List.cons.inj placed
      exact ⟨[], written, lines, rfl, rfl, rfl⟩
  | cons first before ih =>
    cases lines with
    | nil => simp [place] at placed
    | cons written lines =>
      rw [place_cons] at placed
      obtain ⟨rfl, rest⟩ := List.cons.inj placed
      obtain ⟨front, here, back, rfl, length, rfl⟩ := ih rest
      refine ⟨written :: front, here, back, rfl, by simp [length], ?_⟩
      simp [Nat.add_assoc]

theorem exists_written_of_mem_place {start : Nat} {lines : List (List Char × List Char)}
    {line : CommentLine} (member : line ∈ place start lines) :
    ∃ written ∈ lines, written.2 = line.terminator ∧ (splitMargin written.1).2 = line.text := by
  obtain ⟨before, behind, placed⟩ := List.append_of_mem member
  obtain ⟨front, written, back, rfl, -, rfl⟩ := exists_written_of_place placed
  exact ⟨written, by simp, rfl, rfl⟩

theorem start_le_of_mem_place {start : Nat} {lines : List (List Char × List Char)}
    {line : CommentLine} (member : line ∈ place start lines) : start ≤ line.start := by
  induction lines generalizing start with
  | nil => simp [place] at member
  | cons written lines ih =>
    rw [place_cons, List.mem_cons] at member
    rcases member with rfl | later
    · exact Nat.le_refl _
    · have := ih later
      omega

theorem width_splitMargin (line : List Char) :
    width (splitMargin line).1 + width (splitMargin line).2 = width line := by
  rw [← width_append, splitMargin_append]

/-- Laid out lines follow each other, so a line ends at or before the start of those behind it. -/
theorem pairwise_place (start : Nat) (lines : List (List Char × List Char)) :
    (place start lines).Pairwise fun line later =>
      line.stop + width line.terminator ≤ later.start := by
  induction lines generalizing start with
  | nil => exact List.Pairwise.nil
  | cons written lines ih =>
    rw [place_cons]
    refine List.Pairwise.cons ?_ (ih _)
    intro later member
    have behind := start_le_of_mem_place member
    have line := width_splitMargin written.1
    simp only [stop, content, Fragment.stop]
    omega

theorem occursIn_of_mem_place (front back : List Char) {lines : List (List Char × List Char)}
    {line : CommentLine} (member : line ∈ place (width front) lines) :
    line.fragment.OccursIn (front ++ lines.flatMap (fun line => line.1 ++ line.2) ++ back) := by
  induction lines generalizing front with
  | nil => simp [place] at member
  | cons written lines ih =>
    rw [place_cons, List.mem_cons] at member
    rcases member with rfl | later
    · refine ⟨front, lines.flatMap (fun line => line.1 ++ line.2) ++ back, ?_, rfl⟩
      simp [fragment, source, splitMargin_append]
    · have rest := ih (front ++ written.1 ++ written.2) (by
        simpa only [width_append] using later)
      simpa using rest

/-- Laid out lines follow each other without a gap. -/
theorem adjacent_place (start : Nat) (lines : List (List Char × List Char)) :
    Fragment.Adjacent start (start + width (lines.flatMap fun line => line.1 ++ line.2))
      ((place start lines).map fragment) := by
  induction lines generalizing start with
  | nil => rfl
  | cons written lines ih =>
    have rest := ih (start + width written.1 + width written.2)
    rw [place_cons]
    refine ⟨rfl, ?_⟩
    simpa [fragment, source, Fragment.stop, splitMargin_append, Nat.add_assoc] using rest

theorem margin_occursIn {text : List Char} {line : CommentLine}
    (occurs : line.fragment.OccursIn text) : line.marginFragment.OccursIn text :=
  occurs.part [] line.margin (line.text ++ line.terminator) (by simp [fragment, source])

theorem content_occursIn {text : List Char} {line : CommentLine}
    (occurs : line.fragment.OccursIn text) : line.content.OccursIn text :=
  occurs.part line.margin line.text line.terminator rfl

theorem terminator_occursIn {text : List Char} {line : CommentLine}
    (occurs : line.fragment.OccursIn text) :
    (Fragment.mk line.stop line.terminator).OccursIn text := by
  have part := occurs.part (line.margin ++ line.text) line.terminator [] (by
    simp [fragment, source])
  simpa [fragment, stop, content, Fragment.stop, Nat.add_assoc] using part

end CommentLine

namespace DocComment

/-- A text parses as a comment exactly if it is the comment written back, its body ends at the first
closer, and nothing but blanks follows. -/
theorem parse_eq_ok_iff {text : List Char} {comment : DocComment} :
    parse text = .ok comment ↔
      comment.source = text ∧
        splitBefore? closer (comment.body ++ (closer ++ comment.trailing)) =
          some (comment.body, closer ++ comment.trailing) ∧
        allBlank comment.trailing = true := by
  constructor
  · intro parsed
    simp only [parse] at parsed
    split at parsed
    · next opens =>
      split at parsed
      · simp at parsed
      · next body rest found =>
        split at parsed
        · next blank =>
          cases parsed
          obtain ⟨behind, rfl⟩ := List.isPrefixOf_iff_prefix.mp opens
          rw [List.drop_left] at found
          obtain ⟨trailing, rfl⟩ :=
            List.isPrefixOf_iff_prefix.mp (isPrefixOf_of_splitBefore? found)
          have whole := append_of_splitBefore? found
          rw [List.drop_left] at blank
          simp only [List.drop_left]
          refine ⟨?_, by rwa [whole], blank⟩
          rw [source, List.append_assoc, List.append_assoc, whole]
        · simp at parsed
    · simp at parsed
  · rintro ⟨rfl, found, blank⟩
    have opens : opener.isPrefixOf comment.source = true :=
      List.isPrefixOf_iff_prefix.mpr ⟨_, by rw [source, List.append_assoc, List.append_assoc]⟩
    have behind : comment.source.drop opener.length =
        comment.body ++ (closer ++ comment.trailing) := by
      rw [source, List.append_assoc, List.append_assoc, List.drop_left]
    rw [parse, if_pos opens, behind, found]
    dsimp only
    rw [List.drop_left, if_pos blank]

theorem source_of_parse {text : List Char} {comment : DocComment}
    (parsed : parse text = .ok comment) : comment.source = text :=
  (parse_eq_ok_iff.mp parsed).1

variable (comment : DocComment)

theorem closerFragment_start :
    comment.closerFragment.start = width opener + width comment.body := by
  rw [closerFragment, width_append]

/-- The lines before the last one, each of which ends with a line feed, and the last one. Only a
carriage return at the end of the body can stand between the last line and the closer. -/
theorem lines_eq_append :
    ∃ lines last, comment.lines = lines ++ [last] ∧
      (∀ line ∈ lines, line.terminator = ['\n'] ∨ line.terminator = ['\r', '\n']) ∧
      last.terminator = (if comment.body.getLast? = some '\r' then ['\r'] else []) ∧
      last.stop + width last.terminator = comment.closerFragment.start := by
  obtain ⟨written, final, split, feeds, terminator⟩ := splitLines_eq_append comment.body
  have whole := congrArg width (flatMap_splitLines comment.body)
  rw [split, List.flatMap_append, width_append, List.flatMap_singleton, width_append] at whole
  let start := width opener + width (written.flatMap fun line => line.1 ++ line.2)
  refine ⟨CommentLine.place (width opener) written,
    ⟨start, (splitMargin final.1).1, (splitMargin final.1).2, final.2⟩, ?_, ?_, terminator, ?_⟩
  · rw [lines, CommentLine.ofText, split, CommentLine.place_append]
    rfl
  · intro line member
    obtain ⟨source, among, same, -⟩ := CommentLine.exists_written_of_mem_place member
    rw [← same]
    exact feeds source among
  · have margin := CommentLine.width_splitMargin final.1
    simp only [CommentLine.stop, CommentLine.content, Fragment.stop, closerFragment_start]
    omega

/-- Lines do not touch: a line terminator separates them. -/
theorem pairwise_lines : comment.lines.Pairwise fun line later => line.stop < later.start := by
  obtain ⟨lines, last, split, feeds, -, -⟩ := lines_eq_append comment
  have ordered := CommentLine.pairwise_place (width opener) (splitLines comment.body)
  change comment.lines.Pairwise _ at ordered
  rw [split, List.pairwise_append] at ordered ⊢
  have positive : ∀ line ∈ lines, 0 < width line.terminator := by
    intro line member
    rcases feeds line member with feed | feed <;> rw [feed] <;> decide
  refine ⟨ordered.1.imp_of_mem ?_, List.pairwise_singleton _ _, ?_⟩
  · intro line later member _ order
    have := positive line member
    omega
  · intro line member later among
    have := positive line member
    have := ordered.2.2 line member later among
    omega

/-- The lines fill the space between the delimiters. -/
theorem adjacent_lines :
    Fragment.Adjacent (width opener) comment.closerFragment.start
      (comment.lines.map CommentLine.fragment) := by
  have adjacent := CommentLine.adjacent_place (width opener) (splitLines comment.body)
  rwa [flatMap_splitLines, ← closerFragment_start] at adjacent

variable {comment} {line : CommentLine}

theorem fragment_occursIn (member : line ∈ comment.lines) :
    line.fragment.OccursIn comment.source := by
  have occurs := CommentLine.occursIn_of_mem_place opener (closer ++ comment.trailing) member
  rw [flatMap_splitLines] at occurs
  simpa [source] using occurs

theorem content_occursIn (member : line ∈ comment.lines) :
    line.content.OccursIn comment.source :=
  CommentLine.content_occursIn (fragment_occursIn member)

theorem openerFragment_occursIn (comment : DocComment) :
    openerFragment.OccursIn comment.source :=
  ⟨[], comment.body ++ closer ++ comment.trailing, by simp [source, openerFragment], rfl⟩

theorem body_occursIn (comment : DocComment) :
    (Fragment.mk (width opener) comment.body).OccursIn comment.source :=
  ⟨opener, closer ++ comment.trailing, by simp [source], rfl⟩

theorem closerFragment_occursIn (comment : DocComment) :
    comment.closerFragment.OccursIn comment.source :=
  ⟨opener ++ comment.body, comment.trailing, rfl, rfl⟩

theorem trailingFragment_occursIn (comment : DocComment) :
    comment.trailingFragment.OccursIn comment.source := by
  refine ⟨opener ++ comment.body ++ closer, [], (List.append_nil _).symm, ?_⟩
  rw [width_append]
  rfl

theorem trailingFragment_stop (comment : DocComment) :
    comment.trailingFragment.stop = width comment.source := by
  rw [source, width_append, width_append]
  rfl

theorem start_le_stop (line : CommentLine) : line.start ≤ line.stop := by
  simp only [CommentLine.stop, CommentLine.content, Fragment.stop]
  omega

/-- Behind the content of a line stands its terminator, and behind that of the last line the closer
of the comment, unless a carriage return comes first. -/
theorem stop_eq_or_blank (member : line ∈ comment.lines) :
    line.stop = comment.closerFragment.start ∨
      ∃ c, isBlank c = true ∧ StandsAt comment.source line.stop c := by
  have occurs := CommentLine.terminator_occursIn (fragment_occursIn member)
  have blankFront {c : Char} {rest : List Char} (shape : line.terminator = c :: rest)
      (blank : isBlank c = true) : ∃ c, isBlank c = true ∧ StandsAt comment.source line.stop c := by
    obtain ⟨before, after, whole, start⟩ := occurs
    exact ⟨c, blank, before, rest ++ after, by simp [whole, shape], start⟩
  obtain ⟨lines, last, split, feeds, final, meets⟩ := lines_eq_append comment
  rw [split, List.mem_append, List.mem_singleton] at member
  rcases member with earlier | rfl
  · rcases feeds line earlier with feed | feed
    · exact .inr (blankFront feed (by decide))
    · exact .inr (blankFront feed (by decide))
  · split at final
    · exact .inr (blankFront final (by decide))
    · left
      rw [← meets, final]
      rfl

theorem stop_le_closer (member : line ∈ comment.lines) :
    line.stop ≤ comment.closerFragment.start := by
  obtain ⟨lines, last, split, -, -, meets⟩ := lines_eq_append comment
  have ordered := comment.pairwise_lines
  rw [split, List.pairwise_append] at ordered
  rw [split, List.mem_append, List.mem_singleton] at member
  rcases member with earlier | rfl
  · have before := ordered.2.2 line earlier last (List.mem_singleton_self last)
    have := start_le_stop last
    omega
  · omega

end DocComment

end CommentProse
