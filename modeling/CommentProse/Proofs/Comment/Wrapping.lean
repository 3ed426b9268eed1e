import CommentProse.Proofs.Comment.Layout
import CommentProse.Proofs.Markup.Spaces
import CommentProse.Proofs.Text.Trimming

/-! # Wrapping a line of a comment

A space in a comment can be replaced by a line break and a new margin. The lines around stay as they
are, and the line falls into the part before the space and the part behind it
(`DocComment.exists_parse_wrap`): lines are split at line feeds alone, but for carriage returns
right before them, a margin is decided by what it holds and one character more, and a line break and
a margin with a space behind its star make no closer.
-/

namespace CommentProse

/-! ### Lines -/

/-- A line and its terminator as they come out of a text: the line has no line feed, and a carriage
return at its end only if another one begins the terminator. -/
structure IsWrittenLine (written : List Char × List Char) : Prop where
  unbroken : '\n' ∉ written.1
  carriage : written.1.getLast? = some '\r' → written.2.head? = some '\r'

theorem isWrittenLine_of_mem_splitLines (text : List Char) :
    ∀ written ∈ splitLines text, IsWrittenLine written := by
  induction text with
  | nil => simpa [splitLines] using IsWrittenLine.mk (by simp) (by simp)
  | cons c text ih =>
    by_cases feed : c = '\n'
    · rw [splitLines, if_pos feed]
      intro written member
      rcases List.mem_cons.mp member with rfl | later
      · exact ⟨by simp, by simp⟩
      · exact ih written later
    · cases split : splitLines text with
      | nil => exact absurd split (splitLines_ne_nil text)
      | cons first lines =>
        obtain ⟨line, terminator⟩ := first
        rw [split] at ih
        rw [splitLines_cons feed split]
        intro written member
        rcases List.mem_cons.mp member with rfl | later
        · obtain ⟨unbroken, carriage⟩ := ih _ List.mem_cons_self
          split
          · exact ⟨by simp, by simp⟩
          · next keeps =>
            refine ⟨by simp [unbroken, Ne.symm feed], ?_⟩
            cases line with
            | nil => simpa using keeps
            | cons d line => rwa [List.getLast?_cons_cons]
        · exact ih written (List.mem_cons_of_mem _ later)

/-- A line that ends with a line feed is split off. -/
theorem splitLines_append_feed {line terminator : List Char}
    (isWritten : IsWrittenLine (line, terminator))
    (feed : terminator = ['\n'] ∨ terminator = ['\r', '\n']) (rest : List Char) :
    splitLines (line ++ (terminator ++ rest)) = (line, terminator) :: splitLines rest := by
  obtain ⟨unbroken, carriage⟩ := isWritten
  induction line with
  | nil => rcases feed with rfl | rfl <;> simp [splitLines]
  | cons c line ih =>
    have visible : c ≠ '\n' := fun same => unbroken (by simp [same])
    have last (ends : line.getLast? = some '\r') : (c :: line).getLast? = some '\r' := by
      cases line with
      | nil => cases ends
      | cons d line => rwa [List.getLast?_cons_cons]
    have split := ih (fun member => unbroken (List.mem_cons_of_mem _ member)) (carriage ∘ last)
    rw [List.cons_append, splitLines_cons visible split, if_neg]
    rintro ⟨rfl, rfl, other⟩
    exact other (carriage rfl)

/-- Lines that end with line feeds are split off. -/
theorem splitLines_flatMap_append {front : List (List Char × List Char)}
    (areWritten : ∀ written ∈ front, IsWrittenLine written)
    (feeds : ∀ written ∈ front, written.2 = ['\n'] ∨ written.2 = ['\r', '\n']) (rest : List Char) :
    splitLines (front.flatMap (fun line => line.1 ++ line.2) ++ rest) =
      front ++ splitLines rest := by
  induction front with
  | nil => rfl
  | cons written front ih =>
    have others := ih (fun other later => areWritten other (List.mem_cons_of_mem _ later))
      fun other later => feeds other (List.mem_cons_of_mem _ later)
    rw [List.flatMap_cons, List.append_assoc, List.append_assoc,
      splitLines_append_feed (areWritten written List.mem_cons_self)
        (feeds written List.mem_cons_self), others]
    rfl

/-- Without the front of its first line a text has the same lines but for that front. -/
theorem splitLines_of_append {front text line terminator : List Char}
    {lines : List (List Char × List Char)}
    (split : splitLines (front ++ text) = (front ++ line, terminator) :: lines) :
    splitLines text = (line, terminator) :: lines := by
  induction front with
  | nil => exact split
  | cons c front ih =>
    apply ih
    rw [List.cons_append] at split
    have visible : c ≠ '\n' := by
      rintro rfl
      simp [splitLines] at split
    cases shape : splitLines (front ++ text) with
    | nil => exact absurd shape (splitLines_ne_nil _)
    | cons first others =>
      obtain ⟨written, ending⟩ := first
      rw [splitLines_cons visible shape] at split
      split at split
      · simp at split
      · cases split
        rfl

/-- A front without a line feed goes to the first line. -/
theorem splitLines_append (front : List Char) {text line terminator : List Char}
    {lines : List (List Char × List Char)} (unbroken : '\n' ∉ front) (nonempty : line ≠ [])
    (split : splitLines text = (line, terminator) :: lines) :
    splitLines (front ++ text) = (front ++ line, terminator) :: lines := by
  induction front with
  | nil => exact split
  | cons c front ih =>
    have rest := ih fun member => unbroken (List.mem_cons_of_mem _ member)
    rw [List.cons_append, splitLines_cons (fun same => unbroken (by simp [same])) rest,
      if_neg (by simp [nonempty])]
    rfl

/-- A space in a line can be replaced by a line break and a new margin. -/
theorem splitLines_wrap {body line after terminator feed : List Char}
    {before behind : List (List Char × List Char)}
    (split : splitLines body = before ++ (line ++ ' ' :: after, terminator) :: behind)
    (isFeed : feed = ['\n'] ∨ feed = ['\r', '\n']) (ends : line.getLast? ≠ some '\r')
    (nonempty : after ≠ []) :
    ∃ back, body = before.flatMap (fun line => line.1 ++ line.2) ++ line ++ ' ' :: after ++ back ∧
      splitLines (before.flatMap (fun line => line.1 ++ line.2) ++ line ++ feed ++
          [' ', '*', ' '] ++ after ++ back) =
        before ++ (line, feed) :: ([' ', '*', ' '] ++ after, terminator) :: behind := by
  have whole := flatMap_splitLines body
  have written := isWrittenLine_of_mem_splitLines body
  rw [split] at whole written
  have splits := splitLines_flatMap_append
    (fun other member => written other (List.mem_append_left _ member))
    (ends_of_splitLines_eq split).1
  rw [List.flatMap_append, List.flatMap_cons] at whole
  generalize behind.flatMap (fun line => line.1 ++ line.2) = rest at whole
  refine ⟨terminator ++ rest, by rw [← whole]; simp, ?_⟩
  -- The line is split off behind the lines before it, and what stands behind the space behind it.
  rw [← whole, splits] at split
  have here : splitLines ((line ++ [' ']) ++ (after ++ (terminator ++ rest))) =
      ((line ++ [' ']) ++ after, terminator) :: behind := by
    simpa using List.append_cancel_left split
  have later := splitLines_append [' ', '*', ' '] (by decide) nonempty (splitLines_of_append here)
  have isWritten : IsWrittenLine (line, feed) := by
    refine ⟨fun member => ?_, fun last => absurd last ends⟩
    exact (written (line ++ ' ' :: after, terminator) (by simp)).unbroken
      (List.mem_append_left _ member)
  have first := splitLines_append_feed isWritten isFeed
    ([' ', '*', ' '] ++ (after ++ (terminator ++ rest)))
  rw [later] at first
  rw [← first, ← splits]
  simp

/-! ### Margins -/

/-- The margin of a line, of which `content` is left. -/
inductive IsMargin (content : List Char) : List Char → Prop where
  /-- Blanks, and neither a blank nor a star behind them. -/
  | bare {indent : List Char} (blank : ∀ c ∈ indent, isBlank c = true)
      (ends : ∀ c ∈ content.head?, isBlank c = false ∧ c ≠ '*') : IsMargin content indent
  /-- Blanks and a star, and no space behind it. -/
  | starred {indent : List Char} (blank : ∀ c ∈ indent, isBlank c = true)
      (ends : content.head? ≠ some ' ') : IsMargin content (indent ++ ['*'])
  /-- Blanks, a star and a space. -/
  | spaced {indent : List Char} (blank : ∀ c ∈ indent, isBlank c = true) :
      IsMargin content (indent ++ ['*', ' '])

/-- A line has one margin. -/
theorem splitMargin_eq_iff {line margin content : List Char} :
    splitMargin line = (margin, content) ↔ margin ++ content = line ∧ IsMargin content margin := by
  constructor
  · intro split
    have whole := splitMargin_append line
    rw [split] at whole
    refine ⟨whole, ?_⟩
    have blank : ∀ c ∈ line.takeWhile isBlank, isBlank c = true := fun c => List.mem_takeWhile_imp
    have visible : ∀ c ∈ (line.dropWhile isBlank).head?, isBlank c = false := head?_dropWhile
    rw [splitMargin] at split
    split at split
    · obtain ⟨rfl, rfl⟩ := Prod.mk.inj split
      exact .spaced blank
    · next unspaced _ =>
      obtain ⟨rfl, rfl⟩ := Prod.mk.inj split
      refine .starred blank fun space => ?_
      obtain ⟨rest, rfl⟩ := List.head?_eq_some_iff.mp space
      exact unspaced rest rfl
    · next unstarred =>
      obtain ⟨rfl, rfl⟩ := Prod.mk.inj split
      refine .bare blank fun c first => ⟨visible c first, ?_⟩
      rintro rfl
      obtain ⟨rest, shape⟩ := List.head?_eq_some_iff.mp first
      exact unstarred rest shape
  · rintro ⟨rfl, isMargin⟩
    have star : isBlank '*' = false := by decide
    cases isMargin with
    | bare blank ends =>
      obtain ⟨indentIs, contentIs⟩ := scan_append blank fun c first => (ends c first).1
      rw [splitMargin, indentIs, contentIs]
      split
      · exact absurd rfl (ends '*' rfl).2
      · exact absurd rfl (ends '*' rfl).2
      · rfl
    | @starred indent blank ends =>
      obtain ⟨indentIs, starOn⟩ :=
        @scan_append isBlank indent ('*' :: content) blank (by simp [star])
      rw [List.append_assoc, List.singleton_append, splitMargin, indentIs, starOn]
      split
      · next same =>
        cases same
        exact absurd rfl ends
      · next same =>
        cases same
        rfl
      · next unstarred => exact absurd rfl (unstarred content)
    | @spaced indent blank =>
      obtain ⟨indentIs, starOn⟩ :=
        @scan_append isBlank indent ('*' :: ' ' :: content) blank (by simp [star])
      rw [List.append_assoc, List.cons_append, List.singleton_append, splitMargin, indentIs, starOn]
      rfl

/-- A margin depends on no more than the first character behind it. -/
theorem splitMargin_append_cons {margin rest : List Char} {c : Char}
    (split : splitMargin (margin ++ c :: rest) = (margin, c :: rest)) (more : List Char) :
    splitMargin (margin ++ c :: more) = (margin, c :: more) := by
  obtain ⟨-, isMargin⟩ := splitMargin_eq_iff.mp split
  refine splitMargin_eq_iff.mpr ⟨rfl, ?_⟩
  cases isMargin with
  | bare blank ends => exact .bare blank ends
  | starred blank ends => exact .starred blank ends
  | spaced blank => exact .spaced blank

/-! ### Comments -/

/-- A line break and a margin in place of a space make no closer. -/
theorem splitBefore?_closer_wrap (front after : List Char) {rest feed : List Char}
    (isFeed : feed = ['\n'] ∨ feed = ['\r', '\n'])
    (found : splitBefore? closer (front ++ ' ' :: (after ++ rest)) =
      some (front ++ ' ' :: after, rest)) :
    splitBefore? closer (front ++ (feed ++ [' ', '*', ' '] ++ (after ++ rest))) =
      some (front ++ (feed ++ [' ', '*', ' '] ++ after), rest) := by
  rw [splitBefore?_append_cons (by decide) (by decide)] at found
  cases early : splitBefore? closer front with
  | some parts =>
    -- A closer before the space would have ended the comment there.
    obtain ⟨taken, behind⟩ := parts
    rw [early] at found
    have start : taken = front ++ ' ' :: after := congrArg Prod.fst (Option.some.inj found)
    have size := congrArg List.length (append_of_splitBefore? early)
    simp only [start, List.length_append, List.length_cons] at size
    omega
  | none =>
    rw [early, splitBefore?, if_neg (by simp [closer])] at found
    cases inner : splitBefore? closer (after ++ rest) with
    | none => simp [inner] at found
    | some parts =>
      obtain ⟨taken, behind⟩ := parts
      obtain ⟨rfl, rfl⟩ : taken = after ∧ behind = rest := by simpa [inner] using found
      rw [closer] at inner early
      rcases isFeed with rfl | rfl
      · rw [List.append_assoc, List.cons_append, closer,
          splitBefore?_append_cons (by decide) (by decide), early]
        simp [splitBefore?, List.isPrefixOf, inner]
      · rw [List.append_assoc, List.cons_append, closer,
          splitBefore?_append_cons (by decide) (by decide), early]
        simp [splitBefore?, List.isPrefixOf, inner]

namespace DocComment

/-- Replacing a space in a line by a line break and a new margin makes a comment of the same lines,
but for this one, which falls into the parts before and behind the space. -/
theorem exists_parse_wrap {source front back chars after feed : List Char} {comment : DocComment}
    {before behind : List CommentLine} {line : CommentLine}
    (parsed : parse source = .ok comment) (lines : comment.lines = before ++ line :: behind)
    (parts : line.text = chars ++ ' ' :: after) (whole : source = front ++ line.text ++ back)
    (place : width front = line.content.start)
    (isFeed : feed = ['\n'] ∨ feed = ['\r', '\n']) (visible : chars ≠ [])
    (ends : chars.getLast? ≠ some '\r') (visibleAfter : after ≠ []) :
    ∃ wrapped,
      parse (front ++ chars ++ feed ++ [' ', '*', ' '] ++ after ++ back) = .ok wrapped ∧
      wrapped.lines.map CommentLine.text =
        before.map CommentLine.text ++ chars :: after :: behind.map CommentLine.text := by
  obtain ⟨written, found, blank⟩ := parse_eq_ok_iff.mp parsed
  obtain ⟨earlier, here, later, split, length, rfl⟩ := CommentLine.exists_written_of_place lines
  dsimp only [CommentLine.content] at parts whole place
  obtain ⟨margin, marginEq⟩ : ∃ margin, margin = (splitMargin here.1).1 := ⟨_, rfl⟩
  have content : here.1 = margin ++ chars ++ ' ' :: after := by
    rw [marginEq, List.append_assoc, ← parts, splitMargin_append]
  have margins : splitMargin (margin ++ (chars ++ ' ' :: after)) =
      (margin, chars ++ ' ' :: after) := by
    rw [← List.append_assoc, ← content, marginEq, ← parts]
  rw [← marginEq] at place
  have broken : splitLines comment.body =
      earlier ++ (margin ++ chars ++ ' ' :: after, here.2) :: later := by rw [split, ← content]
  obtain ⟨rest, body, wrapped⟩ := splitLines_wrap broken isFeed
    (by rwa [List.getLast?_append_of_ne_nil _ visible]) visibleAfter
  generalize earlier.flatMap (fun line => line.1 ++ line.2) = above at place body wrapped
  -- The text around the line is that of the comment.
  have same : front ++ (chars ++ ' ' :: after ++ back) = opener ++ above ++ margin ++
      (chars ++ ' ' :: after ++ (rest ++ closer ++ comment.trailing)) := by
    rw [← List.append_assoc, ← parts, ← whole, ← written, DocComment.source, body]
    simp [parts]
  obtain ⟨rfl, behindLine⟩ := append_inj_of_width same (by rw [place, width_append, width_append])
  obtain rfl := List.append_cancel_left behindLine
  refine ⟨⟨above ++ (margin ++ chars) ++ feed ++ [' ', '*', ' '] ++ after ++ rest,
    comment.trailing⟩, parse_eq_ok_iff.mpr ⟨by simp [DocComment.source], ?_, blank⟩, ?_⟩
  · rw [body] at found
    simpa using splitBefore?_closer_wrap (above ++ (margin ++ chars)) (after ++ rest) isFeed
      (by simpa using found)
  · have texts := congrArg (List.map CommentLine.text) lines
    rw [DocComment.lines, CommentLine.ofText, CommentLine.map_text_place, split, List.map_append,
      List.map_append, List.map_cons, List.map_cons] at texts
    obtain ⟨first, others⟩ := List.append_inj texts (by simp [length])
    have last := (List.cons.inj others).2
    have kept : (splitMargin (margin ++ chars)).2 = chars := by
      obtain ⟨c, chars, rfl⟩ := List.exists_cons_of_ne_nil visible
      rw [splitMargin_append_cons margins chars]
    rw [DocComment.lines, CommentLine.ofText, CommentLine.map_text_place, wrapped, List.map_append,
      List.map_cons, List.map_cons, first, last, kept]
    rfl

end DocComment

end CommentProse
