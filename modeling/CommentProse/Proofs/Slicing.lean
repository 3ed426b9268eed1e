import CommentProse.Proofs.RoundTrip

/-! # Slicing the source by a range of a passage

A range of a passage is taken to the source by its first and its last byte. Its characters stand in
the source in the same order, so the range in the source is at least as long, begins where a
character begins and lies in the comment. It ends one byte behind the last byte; that is the end of
a character unless the last character is a space that stands for a blank of several bytes, of which
only the first is counted.
-/

namespace CommentProse

/-! ### Boundaries -/

namespace StandsAt

variable {text : List Char} {offset bytes : Nat} {c : Char}

theorem isBoundary (stands : StandsAt text offset c) : IsBoundary text offset := by
  obtain ⟨before, after, whole, size⟩ := stands
  exact ⟨before, c :: after, whole, size⟩

/-- Behind the first byte of a character the next boundary is its end. -/
theorem isBoundary_add_iff (stands : StandsAt text offset c) (positive : 0 < bytes)
    (within : bytes ≤ c.utf8Size) : IsBoundary text (offset + bytes) ↔ bytes = c.utf8Size := by
  obtain ⟨before, after, rfl, rfl⟩ := stands
  constructor
  · rintro ⟨front, back, same, size⟩
    obtain ⟨between, rfl, rest⟩ := exists_between same (by omega)
    cases between with
    | nil => simp only [List.append_nil] at size; omega
    | cons d between =>
      obtain rfl := (List.cons.inj rest).1
      simp only [width_append, width_cons] at size
      omega
  · rintro rfl
    exact ⟨before ++ [c], after, by simp, by simp⟩

end StandsAt

/-! ### Characters in order -/

namespace Glyph

variable {glyphs : List Glyph} {first last : Glyph}

/-- A boundary of the text of some characters parts the characters. -/
theorem exists_append_of_isBoundary {offset : Nat}
    (boundary : IsBoundary (glyphs.map char) offset) :
    ∃ front back, glyphs = front ++ back ∧ width (front.map char) = offset := by
  obtain ⟨before, after, whole, size⟩ := boundary
  obtain ⟨front, back, rfl, rfl, rfl⟩ := List.map_eq_append_iff.mp whole
  exact ⟨front, back, rfl, size⟩

/-- Two boundaries of the text of some characters have some of these between them. -/
theorem exists_between_of_isBoundary {start stop : Nat}
    (lower : IsBoundary (glyphs.map char) start) (upper : IsBoundary (glyphs.map char) stop)
    (apart : start < stop) :
    ∃ before between after first last, glyphs = before ++ between ++ after ∧
      between.head? = some first ∧ between.getLast? = some last ∧
      width (before.map char) = start ∧ width ((before ++ between).map char) = stop := by
  obtain ⟨front, after, rfl, rfl⟩ := exists_append_of_isBoundary upper
  obtain ⟨left, right, whole, rfl⟩ := lower
  rw [List.map_append] at whole
  obtain ⟨middle, parts, -⟩ := exists_between whole.symm (Nat.le_of_lt apart)
  obtain ⟨before, between, rfl, rfl, rfl⟩ := List.map_eq_append_iff.mp parts
  cases between with
  | nil => simp at apart
  | cons first rest =>
    exact ⟨before, first :: rest, after, first, (first :: rest).getLast (by simp), rfl, rfl,
      List.getLast?_eq_some_getLast (by simp), rfl, rfl⟩

/-- Where the bytes of characters increase, they lie between the first and the last character. -/
theorem bounds_of_pairwise (ordered : (glyphs.flatMap bytes).Pairwise (· < ·))
    (begins : glyphs.head? = some first) (ends : glyphs.getLast? = some last) :
    ∀ byte ∈ glyphs.flatMap bytes,
      first.offset ≤ byte ∧ byte < last.offset + last.char.utf8Size := by
  intro byte member
  constructor
  · obtain ⟨rest, rfl⟩ := List.head?_eq_some_iff.mp begins
    rw [List.flatMap_cons, bytes_eq_cons, List.cons_append] at ordered member
    rcases List.mem_cons.mp member with rfl | later
    · exact Nat.le_refl _
    · exact Nat.le_of_lt (List.rel_of_pairwise_cons ordered later)
  · obtain ⟨front, rfl⟩ := List.getLast?_eq_some_iff.mp ends
    rw [List.flatMap_append, List.flatMap_singleton] at ordered member
    rcases List.mem_append.mp member with earlier | now
    · have order := (List.pairwise_append.mp ordered).2.2 byte earlier last.offset
        last.offset_mem_bytes
      have := last.char.utf8Size_pos
      omega
    · exact (List.mem_range'_1.mp now).2

/-- A text of increasing bytes is no wider than the place of its characters. -/
theorem width_map_char_le (ordered : (glyphs.flatMap bytes).Pairwise (· < ·))
    (begins : glyphs.head? = some first) (ends : glyphs.getLast? = some last) :
    width (glyphs.map char) ≤ last.offset + last.char.utf8Size - first.offset := by
  rw [width_map_char]
  exact length_le_of_pairwise_lt ordered (bounds_of_pairwise ordered begins ends)

end Glyph

/-! ### Ranges of a provenance -/

namespace Provenance

variable {provenance : Provenance}

/-- The range of some characters is taken from the first byte of the first one to the last byte of
the last one. -/
theorem originRange?_eq {before glyphs after : List Glyph} {first last : Glyph}
    (offsets : provenance.offsets = (before ++ glyphs ++ after).flatMap Glyph.bytes)
    (begins : glyphs.head? = some first) (ends : glyphs.getLast? = some last) :
    provenance.originRange? ⟨width (before.map Glyph.char),
        width ((before ++ glyphs).map Glyph.char)⟩ =
      some ⟨first.offset, last.offset + last.char.utf8Size⟩ := by
  obtain ⟨rest, shape⟩ := List.head?_eq_some_iff.mp begins
  obtain ⟨front, final⟩ := List.getLast?_eq_some_iff.mp ends
  have start : provenance.origin? (width (before.map Glyph.char)) = some first.offset := by
    rw [shape, List.append_assoc, List.cons_append] at offsets
    exact origin?_width offsets
  have positive := last.char.utf8Size_pos
  have total : width ((before ++ glyphs).map Glyph.char) =
      width ((before ++ front).map Glyph.char) + last.char.utf8Size := by
    simp [final, Nat.add_assoc]
  have stop : provenance.origin? (width ((before ++ glyphs).map Glyph.char) - 1) =
      some (last.offset + (last.char.utf8Size - 1)) := by
    rw [final, ← List.append_assoc, List.append_assoc _ [last], List.singleton_append] at offsets
    rw [total, Nat.add_sub_assoc positive]
    exact origin?_width_add offsets (by omega)
  have later : width (before.map Glyph.char) < width ((before ++ glyphs).map Glyph.char) := by
    rw [total, List.map_append, width_append]
    omega
  rw [originRange?, if_neg (by dsimp only; omega)]
  simp only [start, stop, Nat.ne_of_lt later, if_false, Option.map_some]
  congr 2
  omega

end Provenance

/-! ### Ranges of a passage -/

namespace Passage

/-- The last character before `stop` is a space that stands for a blank of several bytes. -/
def EndsInWideBlank (source : List Char) (passage : Passage) (stop : Nat) : Prop :=
  ∃ position origin blank, position + 1 = stop ∧ StandsAt passage.text position ' ' ∧
    passage.provenance.origin? position = some origin ∧ StandsAt source origin blank ∧
    isBlank blank = true ∧ 1 < blank.utf8Size

/-- Only the last character counts, and the character of the source that it stands for. -/
theorem endsInWideBlank_iff {source : List Char} {passage : Passage} {position origin : Nat}
    {c found : Char} (stands : StandsAt passage.text position c)
    (placed : passage.provenance.origin? position = some origin)
    (copied : StandsAt source origin found) :
    passage.EndsInWideBlank source (position + c.utf8Size) ↔
      c = ' ' ∧ isBlank found = true ∧ 1 < found.utf8Size := by
  constructor
  · rintro ⟨place, other, blank, meets, space, otherPlaced, otherCopied, isBlank, wide⟩
    -- The space begins with the last character, for it cannot begin within it.
    have here : place = position := by
      have positive := c.utf8Size_pos
      by_contra apart
      rcases Nat.lt_or_gt_of_ne apart with before | behind
      · omega
      · have boundary := space.isBoundary
        rw [← Nat.add_sub_cancel' (Nat.le_of_lt behind),
          stands.isBoundary_add_iff (by omega) (by omega)] at boundary
        omega
    subst here
    obtain rfl : other = origin := Option.some.inj (otherPlaced.symm.trans placed)
    obtain rfl := copied.unique otherCopied
    exact ⟨stands.unique space, isBlank, wide⟩
  · rintro ⟨rfl, blank, wide⟩
    exact ⟨position, origin, found, rfl, stands, placed, copied, blank, wide⟩

end Passage

/-- A character of the source that is copied, or that a space stands for, ends as many bytes behind
its start as the copy is wide, unless it is a wide blank. -/
theorem isBoundary_stop_iff {source : List Char} {origin : Nat} {c found : Char}
    (copied : StandsAt source origin found) (same : found = c ∨ c = ' ' ∧ isBlank found = true) :
    IsBoundary source (origin + c.utf8Size) ↔
      ¬(c = ' ' ∧ isBlank found = true ∧ 1 < found.utf8Size) := by
  rcases same with rfl | ⟨rfl, blank⟩
  · rw [copied.isBoundary_add_iff found.utf8Size_pos (Nat.le_refl _)]
    refine iff_of_true rfl ?_
    rintro ⟨rfl, -, wide⟩
    exact absurd wide (by decide)
  · have positive := found.utf8Size_pos
    change IsBoundary source (origin + 1) ↔ _
    rw [copied.isBoundary_add_iff Nat.one_pos positive]
    simp only [blank, true_and]
    omega

/-- A passage as a list of characters: their bytes increase and are bytes of the comment, and each
character is one of the source, or a space for a blank of it. -/
theorem Analysis.IsReadingOf.exists_glyphs_of_mem_passages {settings : Settings} {block : Fragment}
    {analysis : Analysis} (reading : analysis.IsReadingOf settings block) {source : List Char}
    (occurs : block.OccursIn source) {passage : Passage} (member : passage ∈ analysis.passages) :
    ∃ glyphs : List Glyph, passage.text = glyphs.map Glyph.char ∧
      passage.provenance.offsets = glyphs.flatMap Glyph.bytes ∧
      (glyphs.flatMap Glyph.bytes).Pairwise (· < ·) ∧
      (∀ byte ∈ glyphs.flatMap Glyph.bytes, byte ∈ block.range) ∧
      ∀ glyph ∈ glyphs, ∃ found, StandsAt source glyph.offset found ∧
        (found = glyph.char ∨ glyph.char = ' ' ∧ isBlank found = true) := by
  obtain ⟨stretch, glyphs, -, holds, -⟩ := reading.exists_holds_of_mem_passages occurs member
  have text_eq : passage.text = glyphs.map Glyph.char := holds.text_eq
  have offsets_eq : passage.provenance.offsets = glyphs.flatMap Glyph.bytes := holds.offsets_eq
  have among := reading.sublist_offsets
  have increasing := (reading.pairwise_bytes block.start).sublist among
  refine ⟨glyphs, text_eq, offsets_eq, ?_, ?_, ?_⟩
  · rw [← offsets_eq]
    exact (List.pairwise_flatMap.mp increasing).1 passage member
  · intro byte here
    rw [← offsets_eq] at here
    exact reading.mem_range_of_mem_bytes
      (among.subset (List.mem_flatMap.mpr ⟨passage, member, here⟩))
  · intro glyph present
    obtain ⟨front, back, rfl⟩ := List.append_of_mem present
    have stands : StandsAt passage.text (width (front.map Glyph.char)) glyph.char :=
      ⟨_, back.map Glyph.char, by rw [text_eq, List.map_append, List.map_cons], rfl⟩
    obtain ⟨origin, found, placed, copied, same⟩ := reading.round_trip occurs member stands
    rw [Provenance.origin?_width offsets_eq] at placed
    obtain rfl := Option.some.inj placed
    exact ⟨found, copied, same⟩

namespace FoundComment

/-- Every range of a passage between two character boundaries is taken to a range of the source that
is not empty, not shorter, and in the comment of the passage; it begins at a boundary of the source.
It ends at one, so that the source can be sliced by it, exactly if the range of the passage does not
end in a space that stands for a blank of several bytes. -/
theorem ranges_slice_source_iff (settings : Settings) (source : List Char) {found : FoundComment}
    (member : found ∈ all settings source) {analysis : Analysis}
    (analysed : found.outcome = .ok analysis) {passage : Passage}
    (among : passage ∈ analysis.passages) {range : ByteRange}
    (first : IsBoundary passage.text range.start) (last : IsBoundary passage.text range.stop)
    (nonempty : range.start < range.stop) :
    ∃ origins, passage.provenance.originRange? range = some origins ∧
      origins.start < origins.stop ∧
      range.stop - range.start ≤ origins.stop - origins.start ∧
      found.block.start ≤ origins.start ∧ origins.stop ≤ found.block.stop ∧
      IsBoundary source origins.start ∧
      (IsBoundary source origins.stop ↔ ¬passage.EndsInWideBlank source range.stop) := by
  obtain ⟨block, present, rfl⟩ := List.mem_map.mp member
  have reading := Analysis.isReadingOf_of_ofBlock analysed
  obtain ⟨glyphs, text_eq, offsets_eq, ordered, within, copied⟩ :=
    reading.exists_glyphs_of_mem_passages (occursIn_of_mem_docComments present) among
  obtain ⟨start, stop⟩ := range
  rw [text_eq] at first last
  obtain ⟨before, between, after, head, final, rfl, begins, ends, rfl, rfl⟩ :=
    Glyph.exists_between_of_isBoundary first last nonempty
  have headMember := List.mem_of_head? begins
  have finalMember := List.mem_of_getLast? ends
  simp only [List.flatMap_append, List.pairwise_append, List.mem_append] at ordered within copied
  have size := Glyph.width_map_char_le ordered.1.2.1 begins ends
  have positive := final.char.utf8Size_pos
  refine ⟨_, Provenance.originRange?_eq offsets_eq begins ends, ?_, ?_, ?_, ?_, ?_, ?_⟩
  · have reach := (Glyph.bounds_of_pairwise ordered.1.2.1 begins ends head.offset
      (List.mem_flatMap.mpr ⟨head, headMember, head.offset_mem_bytes⟩)).2
    exact reach
  · dsimp only
    rw [List.map_append, width_append]
    omega
  · exact (within head.offset (.inl (.inr
      (List.mem_flatMap.mpr ⟨head, headMember, head.offset_mem_bytes⟩)))).1
  · have final_mem : final.offset + (final.char.utf8Size - 1) ∈ final.bytes :=
      List.mem_range'_1.mpr ⟨Nat.le_add_right _ _, by omega⟩
    have inside := (within _ (.inl (.inr
      (List.mem_flatMap.mpr ⟨final, finalMember, final_mem⟩)))).2
    simp only [Fragment.range] at inside
    dsimp only
    omega
  · obtain ⟨found, stands, -⟩ := copied head (.inl (.inr headMember))
    exact stands.isBoundary
  · obtain ⟨found, stands, same⟩ := copied final (.inl (.inr finalMember))
    obtain ⟨inner, rfl⟩ := List.getLast?_eq_some_iff.mp ends
    have finalStands :
        StandsAt passage.text (width ((before ++ inner).map Glyph.char)) final.char :=
      ⟨_, after.map Glyph.char, by simp [text_eq], rfl⟩
    rw [← List.append_assoc, List.append_assoc _ [final], List.singleton_append] at offsets_eq
    have condition := Passage.endsInWideBlank_iff finalStands
      (Provenance.origin?_width offsets_eq) stands
    have meets : width ((before ++ (inner ++ [final])).map Glyph.char) =
        width ((before ++ inner).map Glyph.char) + final.char.utf8Size := by simp [Nat.add_assoc]
    dsimp only
    rw [meets, condition]
    exact isBoundary_stop_iff stands same

/-- The space between `a` and `b` stands for a no-break space of two bytes. Its range ends within
that blank. -/
theorem ranges_slice_source_iff_wide_blank :
    ∃ found ∈ all .standard "/** a\u00a0\n * b*/".toList, ∃ analysis, found.outcome = .ok analysis ∧
      ∃ passage ∈ analysis.passages, passage.text = "a b".toList ∧
        passage.provenance.originRange? ⟨1, 2⟩ = some ⟨5, 6⟩ ∧
        passage.EndsInWideBlank "/** a\u00a0\n * b*/".toList 2 ∧
        ¬IsBoundary "/** a\u00a0\n * b*/".toList 6 := by
  have analysed : Analysis.ofBlock .standard ⟨0, "/** a\u00a0\n * b*/".toList⟩ = .ok
      { offset := 0
        comment := ⟨" a\u00a0\n * b".toList, []⟩
        lines :=
          [⟨⟨3, [' '], "a\u00a0".toList, ['\n']⟩, [⟨.prose, ⟨4, 7⟩, false⟩]⟩,
          ⟨⟨8, " * ".toList, ['b'], []⟩, [⟨.prose, ⟨11, 12⟩, false⟩]⟩]
        unfinished := []
        passages := [⟨0, 0, .description, "a b".toList, ⟨[⟨4, 2⟩, ⟨11, 1⟩]⟩⟩] } := by decide +kernel
  have member : ⟨⟨0, "/** a\u00a0\n * b*/".toList⟩, Analysis.ofBlock .standard _⟩ ∈
      all .standard "/** a\u00a0\n * b*/".toList := List.mem_map_of_mem (by decide +kernel)
  obtain ⟨origins, found, -, -, -, -, -, condition⟩ :=
    @ranges_slice_source_iff .standard _ _ member _ analysed _ (List.mem_singleton_self _) ⟨1, 2⟩
      ⟨['a'], [' ', 'b'], rfl, rfl⟩ ⟨['a', ' '], ['b'], rfl, rfl⟩ (by decide)
  obtain rfl : ⟨5, 6⟩ = origins := Option.some.inj found
  have wide : Passage.EndsInWideBlank "/** a\u00a0\n * b*/".toList
      ⟨0, 0, .description, "a b".toList, ⟨[⟨4, 2⟩, ⟨11, 1⟩]⟩⟩ 2 :=
    ⟨1, 5, '\u00a0', rfl, ⟨['a'], ['b'], rfl, rfl⟩, rfl,
      ⟨"/** a".toList, "\n * b*/".toList, rfl, rfl⟩, rfl, by decide⟩
  exact ⟨_, member, _, analysed, _, List.mem_singleton_self _, rfl, rfl, wide,
    fun boundary => condition.mp boundary wide⟩

end FoundComment

end CommentProse
