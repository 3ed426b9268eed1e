import CommentProse.Text.Blank

/-! # Places in a text

Offsets count bytes, texts are lists of characters. `IsBoundary` and `StandsAt` say what an offset
means in a text without any arithmetic: the text is cut in two, and the front part has that width.
`Fragment.OccursIn` does the same for stretches of text, `Glyph` for single characters that know
where they stand. Two cuts of one text are compared by `exists_between`, which is all that is needed
to slice fragments and to move from a text to a stretch of it.
-/

namespace CommentProse

/-- No character of the text lies across the offset. -/
def IsBoundary (text : List Char) (offset : Nat) : Prop :=
  ∃ before after, text = before ++ after ∧ width before = offset

/-- The character whose first byte has this offset. -/
def StandsAt (text : List Char) (offset : Nat) (c : Char) : Prop :=
  ∃ before after, text = before ++ c :: after ∧ width before = offset

theorem IsBoundary.le_width {text : List Char} {offset : Nat} (boundary : IsBoundary text offset) :
    offset ≤ width text := by
  obtain ⟨before, after, rfl, rfl⟩ := boundary
  rw [width_append]
  exact Nat.le_add_right _ _

/-- The range is ordered and within the text, and no character lies across either end. -/
structure ByteRange.IsRangeOf (text : List Char) (range : ByteRange) : Prop where
  order : range.start ≤ range.stop
  within : range.stop ≤ width text
  first : IsBoundary text range.start
  last : IsBoundary text range.stop

theorem ByteRange.IsRangeOf.of_boundaries {text : List Char} {range : ByteRange}
    (order : range.start ≤ range.stop) (first : IsBoundary text range.start)
    (last : IsBoundary text range.stop) : range.IsRangeOf text :=
  ⟨order, last.le_width, first, last⟩

/-- Of two cuts of a text, the later one leaves a stretch between them. -/
theorem exists_between {before after front back : List Char}
    (same : before ++ after = front ++ back) (earlier : width before ≤ width front) :
    ∃ between, front = before ++ between ∧ after = between ++ back := by
  obtain ⟨between, rfl, rfl⟩ | ⟨between, rfl, rfl⟩ := List.append_eq_append_iff.mp same
  · exact ⟨between, rfl, rfl⟩
  · have empty : between = [] := width_eq_zero.mp (by simp only [width_append] at earlier; omega)
    subst empty
    exact ⟨[], by simp, by simp⟩

/-- A text is cut in one way at each width. -/
theorem append_inj_of_width {before after front back : List Char}
    (same : before ++ after = front ++ back) (size : width before = width front) :
    before = front ∧ after = back := by
  obtain ⟨between, rfl, rfl⟩ := exists_between same (Nat.le_of_eq size)
  have empty : between = [] := width_eq_zero.mp (by simp only [width_append] at size; omega)
  subst empty
  exact ⟨(List.append_nil _).symm, rfl⟩

/-- Every byte of a text belongs to one of its characters. -/
theorem exists_char_around {text : List Char} {start offset : Nat} (lower : start ≤ offset)
    (upper : offset < start + width text) :
    ∃ left c right, text = left ++ c :: right ∧ start + width left ≤ offset ∧
      offset < start + width left + c.utf8Size := by
  induction text generalizing start with
  | nil => simp only [width_nil] at upper; omega
  | cons c text ih =>
    rw [width_cons] at upper
    by_cases here : offset < start + c.utf8Size
    · exact ⟨[], c, text, rfl, by simpa using lower, by simpa using here⟩
    · obtain ⟨left, d, right, rfl, first, last⟩ :=
        ih (Nat.not_lt.mp here) (by omega)
      refine ⟨c :: left, d, right, rfl, ?_, ?_⟩ <;> rw [width_cons] <;> omega

/-- A byte belongs to one character of a text. -/
theorem eq_of_char_around {left right front back : List Char} {c d : Char}
    (same : left ++ c :: right = front ++ d :: back) {start offset : Nat}
    (lower : start + width left ≤ offset) (upper : offset < start + width left + c.utf8Size)
    (first : start + width front ≤ offset) (last : offset < start + width front + d.utf8Size) :
    left = front ∧ c = d := by
  -- Neither character can begin behind the other.
  have order {left right front back : List Char} {c d : Char}
      (same : left ++ c :: right = front ++ d :: back)
      (upper : offset < start + width left + c.utf8Size) (first : start + width front ≤ offset) :
      width front ≤ width left := by
    refine Nat.not_lt.mp fun behind => ?_
    obtain ⟨between, rfl, rest⟩ := exists_between same (Nat.le_of_lt behind)
    cases between with
    | nil => simp at behind
    | cons e between =>
      obtain rfl := (List.cons.inj rest).1
      simp only [width_append, width_cons] at first
      omega
  have size := Nat.le_antisymm (order same.symm last lower) (order same upper first)
  obtain ⟨rfl, rest⟩ := append_inj_of_width same size
  exact ⟨rfl, (List.cons.inj rest).1⟩

theorem StandsAt.unique {text : List Char} {offset : Nat} {c d : Char}
    (stands : StandsAt text offset c) (also : StandsAt text offset d) : c = d := by
  obtain ⟨before, after, rfl, start⟩ := stands
  obtain ⟨front, back, same, size⟩ := also
  exact (List.cons.inj (append_inj_of_width same (start.trans size.symm)).2).1

theorem takeBytes_width_append (left right : List Char) :
    takeBytes (width left) (left ++ right) = left := by
  induction left with
  | nil =>
    cases right with
    | nil => rfl
    | cons c right => simp [takeBytes, c.utf8Size_pos]
  | cons c left ih => simp [takeBytes, Nat.not_lt.mpr (Nat.le_add_right ..), ih]

theorem dropBytes_width_append (left right : List Char) :
    dropBytes (width left) (left ++ right) = right := by
  induction left with
  | nil => cases right <;> simp [dropBytes]
  | cons c left ih =>
    have positive := c.utf8Size_pos
    simp only [width_cons, List.cons_append, dropBytes]
    rw [if_neg (by omega), Nat.add_sub_cancel_left, ih]

namespace Fragment

/-- Slicing between two boundaries gives the text between them. -/
theorem slice_append (start : Nat) (left middle right : List Char) :
    (Fragment.mk start (left ++ middle ++ right)).slice
      ⟨start + width left, start + width left + width middle⟩ = ⟨start + width left, middle⟩ := by
  simp only [slice, Nat.add_sub_cancel_left, List.append_assoc, dropBytes_width_append,
    takeBytes_width_append]

/-- The fragment is a stretch of the text, at the offset that it names. -/
def OccursIn (text : List Char) (fragment : Fragment) : Prop :=
  ∃ before after, text = before ++ fragment.text ++ after ∧ width before = fragment.start

/-- The slice of a text between two of its boundaries stands there. -/
theorem occursIn_slice {text : List Char} {range : ByteRange} (valid : range.IsRangeOf text) :
    ((Fragment.mk 0 text).slice range).OccursIn text ∧
      ((Fragment.mk 0 text).slice range).range = range := by
  obtain ⟨order, -, ⟨before, after, rfl, lower⟩, front, back, same, upper⟩ := valid
  obtain ⟨between, rfl, rfl⟩ := exists_between same (by omega)
  obtain ⟨start, stop⟩ := range
  obtain rfl : width before = start := lower
  obtain rfl : width (before ++ between) = stop := upper
  have cut := slice_append 0 before between back
  rw [Nat.zero_add, List.append_assoc, ← width_append] at cut
  rw [cut]
  exact ⟨⟨before, back, (List.append_assoc ..).symm, rfl⟩, by simp [Fragment.range, stop]⟩

variable {text : List Char} {fragment : Fragment}

theorem OccursIn.isBoundary_start (occurs : fragment.OccursIn text) :
    IsBoundary text fragment.start := by
  obtain ⟨before, after, whole, start⟩ := occurs
  exact ⟨before, fragment.text ++ after, by rw [whole, List.append_assoc], start⟩

theorem OccursIn.isBoundary_stop (occurs : fragment.OccursIn text) :
    IsBoundary text fragment.stop := by
  obtain ⟨before, after, whole, start⟩ := occurs
  exact ⟨before ++ fragment.text, after, whole, by rw [width_append, start]; rfl⟩

theorem OccursIn.stop_le (occurs : fragment.OccursIn text) : fragment.stop ≤ width text :=
  occurs.isBoundary_stop.le_width

theorem OccursIn.isRangeOf (occurs : fragment.OccursIn text) : fragment.range.IsRangeOf text :=
  .of_boundaries (Nat.le_add_right _ _) occurs.isBoundary_start occurs.isBoundary_stop

/-- What occurs in a stretch of a text occurs in the text. -/
theorem OccursIn.shift {source : List Char} {block : Fragment}
    (inner : fragment.OccursIn block.text) (outer : block.OccursIn source) :
    (fragment.shift block.start).OccursIn source := by
  obtain ⟨before, after, whole, start⟩ := inner
  obtain ⟨front, back, source_eq, block_start⟩ := outer
  refine ⟨front ++ before, after ++ back, ?_, ?_⟩
  · simp only [source_eq, whole, Fragment.shift, List.append_assoc]
  · simp only [width_append, block_start, start, Fragment.shift]

/-- A part of a fragment occurs wherever the fragment does. -/
theorem OccursIn.part (occurs : fragment.OccursIn text) (left middle right : List Char)
    (parts : fragment.text = left ++ middle ++ right) :
    (Fragment.mk (fragment.start + width left) middle).OccursIn text := by
  obtain ⟨before, after, whole, start⟩ := occurs
  refine ⟨before ++ left, right ++ after, ?_, ?_⟩
  · simp only [whole, parts, List.append_assoc]
  · simp only [width_append, start]

theorem OccursIn.takeWhile (occurs : fragment.OccursIn text) (p : Char → Bool) :
    (fragment.takeWhile p).OccursIn text :=
  occurs.part [] (fragment.text.takeWhile p) (fragment.text.dropWhile p)
    (fragment.text_takeWhile_append_dropWhile p).symm

theorem OccursIn.dropWhile (occurs : fragment.OccursIn text) (p : Char → Bool) :
    (fragment.dropWhile p).OccursIn text :=
  occurs.part (fragment.text.takeWhile p) (fragment.text.dropWhile p) []
    (by rw [List.append_nil, List.takeWhile_append_dropWhile])

theorem stop_dropWhile (fragment : Fragment) (p : Char → Bool) :
    (fragment.dropWhile p).stop = fragment.stop := by
  have whole := congrArg width (fragment.text_takeWhile_append_dropWhile p)
  rw [width_append] at whole
  simp only [stop, Fragment.dropWhile, Fragment.takeWhile] at whole ⊢
  omega

/-- A boundary of the text that lies in a fragment cuts the fragment. -/
theorem OccursIn.exists_cut (occurs : fragment.OccursIn text) {offset : Nat}
    (boundary : IsBoundary text offset) (lower : fragment.start ≤ offset)
    (upper : offset ≤ fragment.stop) :
    ∃ left right, fragment.text = left ++ right ∧ fragment.start + width left = offset := by
  obtain ⟨before, after, rfl, start⟩ := occurs
  obtain ⟨front, back, same, rfl⟩ := boundary
  rw [List.append_assoc] at same
  obtain ⟨left, rfl, rest⟩ := exists_between same (by omega)
  obtain ⟨right, parts, -⟩ := exists_between rest.symm (by
    simp only [width_append, stop] at upper
    omega)
  exact ⟨left, right, parts, by rw [width_append, start]⟩

end Fragment

namespace Fragment

/-- The fragments follow each other from `start` to `stop`. -/
def Adjacent (start stop : Nat) : List Fragment → Prop
  | [] => start = stop
  | fragment :: fragments => fragment.start = start ∧ Adjacent fragment.stop stop fragments

theorem Adjacent.append {start middle stop : Nat} {front back : List Fragment}
    (first : Adjacent start middle front) (second : Adjacent middle stop back) :
    Adjacent start stop (front ++ back) := by
  induction front generalizing start with
  | nil => exact (show start = middle from first) ▸ second
  | cons fragment front ih => exact ⟨first.1, ih first.2⟩

theorem Adjacent.exists_middle {start stop : Nat} {front back : List Fragment}
    (adjacent : Adjacent start stop (front ++ back)) :
    ∃ middle, Adjacent start middle front ∧ Adjacent middle stop back := by
  induction front generalizing start with
  | nil => exact ⟨start, rfl, adjacent⟩
  | cons fragment front ih =>
    obtain ⟨middle, first, second⟩ := ih adjacent.2
    exact ⟨middle, ⟨adjacent.1, first⟩, second⟩

/-- Adjacent fragments occur wherever the text that they make up does. -/
theorem Adjacent.occursIn {text : List Char} {start stop : Nat} {fragments : List Fragment}
    (adjacent : Adjacent start stop fragments)
    (occurs : (Fragment.mk start (fragments.flatMap Fragment.text)).OccursIn text) :
    ∀ fragment ∈ fragments, fragment.OccursIn text := by
  induction fragments generalizing start with
  | nil => simp
  | cons fragment fragments ih =>
    obtain ⟨rfl, rest⟩ := adjacent
    have here := occurs.part [] fragment.text (fragments.flatMap Fragment.text) rfl
    have later := occurs.part fragment.text (fragments.flatMap Fragment.text) []
      (List.append_nil _).symm
    exact List.forall_mem_cons.mpr ⟨here, ih rest later⟩

/-- Adjacent fragments may each be cut into adjacent fragments. -/
theorem Adjacent.flatMap {α : Type} {start stop : Nat} {items : List α} {whole : α → Fragment}
    {parts : α → List Fragment} (adjacent : Adjacent start stop (items.map whole))
    (cut : ∀ item ∈ items, Adjacent (whole item).start (whole item).stop (parts item)) :
    Adjacent start stop (items.flatMap parts) := by
  induction items generalizing start with
  | nil => exact adjacent
  | cons item items ih =>
    obtain ⟨rfl, rest⟩ := adjacent
    exact (cut item List.mem_cons_self).append
      (ih rest fun other member => cut other (List.mem_cons_of_mem _ member))

end Fragment

/-! ### Characters in place -/

/-- A character and the offset of its first byte. -/
@[ext] structure Glyph where
  offset : Nat
  char : Char
deriving DecidableEq, Repr

namespace Glyph

/-- The offsets of the bytes of a character. -/
def bytes (glyph : Glyph) : List Nat := List.range' glyph.offset glyph.char.utf8Size

/-- A character that is not blank. -/
def isVisible (glyph : Glyph) : Bool := !isBlank glyph.char

theorem bytes_eq_cons (glyph : Glyph) :
    glyph.bytes = glyph.offset :: List.range' (glyph.offset + 1) (glyph.char.utf8Size - 1) := by
  obtain ⟨size, positive⟩ := Nat.exists_eq_succ_of_ne_zero (Nat.ne_of_gt glyph.char.utf8Size_pos)
  rw [bytes, positive, List.range'_succ, Nat.succ_sub_one]

theorem offset_mem_bytes (glyph : Glyph) : glyph.offset ∈ glyph.bytes := by
  rw [bytes_eq_cons]
  exact List.mem_cons_self

end Glyph

/-- The characters of a text that begins at `start`. -/
def glyphsOf (start : Nat) : List Char → List Glyph
  | [] => []
  | c :: text => ⟨start, c⟩ :: glyphsOf (start + c.utf8Size) text

@[simp] theorem glyphsOf_nil (start : Nat) : glyphsOf start [] = [] := rfl

theorem glyphsOf_append (start : Nat) (left right : List Char) :
    glyphsOf start (left ++ right) = glyphsOf start left ++ glyphsOf (start + width left) right := by
  induction left generalizing start with
  | nil => rfl
  | cons c left ih => simp [glyphsOf, ih, Nat.add_assoc]

theorem StandsAt.mem_glyphsOf {text : List Char} {offset : Nat} {c : Char}
    (stands : StandsAt text offset c) : ⟨offset, c⟩ ∈ glyphsOf 0 text := by
  obtain ⟨before, after, rfl, rfl⟩ := stands
  rw [glyphsOf_append, Nat.zero_add]
  exact List.mem_append_right _ List.mem_cons_self

@[simp] theorem map_char_glyphsOf (start : Nat) (text : List Char) :
    (glyphsOf start text).map Glyph.char = text := by
  induction text generalizing start with
  | nil => rfl
  | cons c text ih => simp [glyphsOf, ih]

/-- A text of blanks has no visible character. -/
theorem filter_isVisible_glyphsOf (start : Nat) {text : List Char}
    (blank : ∀ c ∈ text, isBlank c = true) : (glyphsOf start text).filter Glyph.isVisible = [] := by
  apply List.filter_eq_nil_iff.mpr
  intro glyph member
  have char := List.mem_map_of_mem (f := Glyph.char) member
  rw [map_char_glyphsOf] at char
  simp [Glyph.isVisible, blank glyph.char char]

/-- The characters of a text take up its bytes without gap or overlap. -/
theorem flatMap_bytes_glyphsOf (start : Nat) (text : List Char) :
    (glyphsOf start text).flatMap Glyph.bytes = List.range' start (width text) := by
  induction text generalizing start with
  | nil => rfl
  | cons c text ih =>
    simp only [glyphsOf, List.flatMap_cons, ih, Glyph.bytes, width_cons, List.range'_append_1]

/-- The width of a text is the number of bytes of its characters. -/
theorem width_map_char (glyphs : List Glyph) :
    width (glyphs.map Glyph.char) = (glyphs.flatMap Glyph.bytes).length := by
  induction glyphs with
  | nil => rfl
  | cons glyph glyphs ih => simp [ih, Glyph.bytes]

namespace Fragment

/-- The characters of a fragment, in place. -/
def glyphs (fragment : Fragment) : List Glyph := glyphsOf fragment.start fragment.text

/-- The offsets of the bytes of a fragment. -/
def bytes (fragment : Fragment) : List Nat := List.range' fragment.start (width fragment.text)

theorem flatMap_bytes_glyphs (fragment : Fragment) :
    fragment.glyphs.flatMap Glyph.bytes = fragment.bytes :=
  flatMap_bytes_glyphsOf fragment.start fragment.text

theorem mem_bytes {fragment : Fragment} {offset : Nat} :
    offset ∈ fragment.bytes ↔ offset ∈ fragment.range := by
  rw [bytes, List.mem_range'_1, ByteRange.mem_iff]
  rfl

theorem offset_mem_bytes {fragment : Fragment} {glyph : Glyph} (member : glyph ∈ fragment.glyphs) :
    glyph.offset ∈ fragment.bytes := by
  rw [← flatMap_bytes_glyphs]
  exact List.mem_flatMap.mpr ⟨glyph, member, glyph.offset_mem_bytes⟩

/-- A character of a fragment stands in every text in which the fragment occurs. -/
theorem OccursIn.standsAt {text : List Char} {fragment : Fragment}
    (occurs : fragment.OccursIn text) {glyph : Glyph} (member : glyph ∈ fragment.glyphs) :
    StandsAt text glyph.offset glyph.char := by
  obtain ⟨before, after, rfl, start⟩ := occurs
  obtain ⟨offset, chars⟩ := fragment
  simp only [glyphs] at member start ⊢
  induction chars generalizing before offset with
  | nil => simp at member
  | cons c chars ih =>
    rcases List.mem_cons.mp member with rfl | later
    · exact ⟨before, chars ++ after, by simp, start⟩
    · have rest := ih (before ++ [c]) (offset + c.utf8Size) later (by simp [start])
      simpa using rest

/-- Dropping blanks at the front of a fragment loses no visible character. -/
theorem glyphs_eq_blanks_append (fragment : Fragment) :
    ∃ blanks, fragment.glyphs = blanks ++ (fragment.dropWhile isBlank).glyphs ∧
      blanks.filter Glyph.isVisible = [] := by
  refine ⟨glyphsOf fragment.start (fragment.text.takeWhile isBlank), ?_, ?_⟩
  · rw [glyphs, glyphs, dropWhile, ← glyphsOf_append, List.takeWhile_append_dropWhile]
  · apply filter_isVisible_glyphsOf
    intro c member
    exact List.all_eq_true.mp List.all_takeWhile c member

/-- Adjacent fragments have the characters of the text that they make up. -/
theorem Adjacent.flatMap_glyphs_shift {start stop : Nat} {fragments : List Fragment}
    (adjacent : Adjacent start stop fragments) (offset : Nat) :
    fragments.flatMap (fun fragment => (fragment.shift offset).glyphs) =
      glyphsOf (offset + start) (fragments.flatMap Fragment.text) := by
  induction fragments generalizing start with
  | nil => rfl
  | cons fragment fragments ih =>
    obtain ⟨rfl, rest⟩ := adjacent
    rw [List.flatMap_cons, List.flatMap_cons, glyphsOf_append, ih rest, Nat.add_assoc]
    rfl

end Fragment

end CommentProse
