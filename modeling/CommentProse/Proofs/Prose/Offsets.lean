import CommentProse.Proofs.Text.Places
import CommentProse.Prose.Provenance
import Mathlib.Data.List.Perm.Subperm

/-! # Provenance as a list of offsets

Runs only save space: a provenance stands for the list of the offsets behind its positions. Pushing
appends to that list, taking cuts it, and asking for the offset behind a position looks it up. When
the list is made of the bytes of characters that are known by their place, looking up the position
of a character of the text finds the place of the character that it stands for.
-/

namespace CommentProse

/-- Increasing numbers between two bounds are no more than fit there. -/
theorem length_le_of_pairwise_lt {numbers : List Nat} {lower upper : Nat}
    (ordered : numbers.Pairwise (· < ·)) (bounds : ∀ n ∈ numbers, lower ≤ n ∧ n < upper) :
    numbers.length ≤ upper - lower := by
  have inside : numbers ⊆ List.range' lower (upper - lower) := by
    intro n member
    have := bounds n member
    rw [List.mem_range'_1]
    omega
  have distinct : numbers.Nodup := ordered.imp Nat.ne_of_lt
  simpa using (List.subperm_of_subset distinct inside).length_le

namespace Provenance

/-- The offsets of the bytes of runs. -/
def offsetsOfRuns (runs : List Run) : List Nat :=
  runs.flatMap fun run => List.range' run.source run.length

private theorem offsetsOfRuns_cons (run : Run) (runs : List Run) :
    offsetsOfRuns (run :: runs) = List.range' run.source run.length ++ offsetsOfRuns runs := rfl

/-- The offset behind each position. -/
def offsets (provenance : Provenance) : List Nat := offsetsOfRuns provenance.runs

private theorem length_offsetsOfRuns (runs : List Run) :
    (offsetsOfRuns runs).length = sizeOfRuns runs := by
  induction runs with
  | nil => rfl
  | cons run runs ih =>
    rw [offsetsOfRuns_cons, List.length_append, List.length_range', ih, sizeOfRuns]

@[simp] theorem length_offsets (provenance : Provenance) :
    provenance.offsets.length = provenance.size := length_offsetsOfRuns provenance.runs

private theorem offsetsOfRuns_pushRun (run : Run) (runs : List Run) :
    offsetsOfRuns (pushRun run runs) = offsetsOfRuns runs ++ List.range' run.source run.length := by
  fun_induction pushRun run runs with
  | case1 => simp [offsetsOfRuns]
  | case2 last meets =>
    simp only [offsetsOfRuns, List.flatMap_singleton]
    rw [← meets, Run.stop, List.range'_append_1]
  | case3 last apart => simp [offsetsOfRuns]
  | case4 first runs _ ih => rw [offsetsOfRuns_cons, ih, offsetsOfRuns_cons, List.append_assoc]

theorem offsets_push (source length : Nat) (provenance : Provenance) :
    (provenance.push source length).offsets =
      provenance.offsets ++ List.range' source length := by
  rw [push]
  split
  · next nothing => rw [nothing, List.range'_zero, List.append_nil]
  · exact offsetsOfRuns_pushRun ⟨source, length⟩ provenance.runs

theorem offsets_take (size : Nat) (provenance : Provenance) :
    (provenance.take size).offsets = provenance.offsets.take size := by
  obtain ⟨runs⟩ := provenance
  rw [take, offsets, offsets]
  dsimp only
  fun_induction takeRuns size runs with
  | case1 => simp [offsetsOfRuns]
  | case2 => simp [offsetsOfRuns]
  | case3 size run runs _ within =>
    rw [offsetsOfRuns_cons, offsetsOfRuns_cons,
      List.take_append_of_le_length (by rwa [List.length_range']),
      List.take_range'_of_length_ge within]
    exact List.append_nil _
  | case4 size run runs _ beyond ih =>
    rw [offsetsOfRuns_cons, ih, offsetsOfRuns_cons, List.take_append, List.length_range',
      List.take_range'_of_length_le (by omega)]

theorem originIn?_eq_getElem? (position : Nat) (runs : List Run) :
    originIn? position runs = (offsetsOfRuns runs)[position]? := by
  fun_induction originIn? position runs with
  | case1 => rfl
  | case2 position run runs inside =>
    rw [offsetsOfRuns_cons, List.getElem?_append_left (by rwa [List.length_range']),
      List.getElem?_range' inside, Nat.one_mul]
  | case3 position run runs beyond ih =>
    rw [ih, offsetsOfRuns_cons, List.getElem?_append_right (by rw [List.length_range']; omega),
      List.length_range']

/-- Behind each position within the size is the offset at this index. -/
theorem origin?_eq_getElem? {provenance : Provenance} {position : Nat}
    (inside : position < provenance.size) :
    provenance.origin? position = provenance.offsets[position]? := by
  rw [origin?, if_neg (Nat.ne_of_lt inside), originIn?_eq_getElem?]
  rfl

/-- The offsets behind all positions, asked for one by one. -/
theorem map_origin?_range (provenance : Provenance) :
    (List.range provenance.size).map provenance.origin? = provenance.offsets.map some := by
  apply List.ext_getElem?
  intro position
  rw [List.getElem?_map, List.getElem?_map]
  by_cases inside : position < provenance.size
  · obtain ⟨origin, found⟩ : ∃ origin, provenance.offsets[position]? = some origin :=
      ⟨_, List.getElem?_eq_getElem (by rwa [length_offsets])⟩
    rw [List.getElem?_range inside, found, Option.map_some, origin?_eq_getElem? inside, found]
    rfl
  · have beyond : provenance.size ≤ position := Nat.not_lt.mp inside
    rw [List.getElem?_eq_none (by rwa [List.length_range]),
      List.getElem?_eq_none (by rwa [length_offsets])]
    rfl

variable {provenance : Provenance}

/-- Where the offsets are those of the bytes of characters, each byte of a character is mapped to
the byte of the character that it stands for. -/
theorem origin?_width_add {front back : List Glyph} {glyph : Glyph}
    (offsets : provenance.offsets = (front ++ glyph :: back).flatMap Glyph.bytes) {byte : Nat}
    (inside : byte < glyph.char.utf8Size) :
    provenance.origin? (width (front.map Glyph.char) + byte) = some (glyph.offset + byte) := by
  rw [List.flatMap_append, List.flatMap_cons] at offsets
  have size : glyph.bytes.length = glyph.char.utf8Size := List.length_range'
  have within : width (front.map Glyph.char) + byte < provenance.size := by
    rw [← length_offsets, offsets, width_map_char, List.length_append, List.length_append, size]
    omega
  rw [origin?_eq_getElem? within, offsets, width_map_char,
    List.getElem?_append_right (Nat.le_add_right _ _), Nat.add_sub_cancel_left,
    List.getElem?_append_left (by rwa [size]), Glyph.bytes, List.getElem?_range' inside,
    Nat.one_mul]

/-- The position behind the first characters is mapped to the place of the next one. -/
theorem origin?_width {front back : List Glyph} {glyph : Glyph}
    (offsets : provenance.offsets = (front ++ glyph :: back).flatMap Glyph.bytes) :
    provenance.origin? (width (front.map Glyph.char)) = some glyph.offset :=
  origin?_width_add offsets glyph.char.utf8Size_pos

/-- Then every position at which a character of the text begins is mapped to the place of the
character that it stands for. -/
theorem map_origin?_glyphsOf {glyphs : List Glyph}
    (offsets : provenance.offsets = glyphs.flatMap Glyph.bytes) :
    (glyphsOf 0 (glyphs.map Glyph.char)).map
        (fun place => (provenance.origin? place.offset, place.char)) =
      glyphs.map fun glyph => (some glyph.offset, glyph.char) := by
  have later (front back : List Glyph) (whole : front ++ back = glyphs) :
      (glyphsOf (width (front.map Glyph.char)) (back.map Glyph.char)).map
          (fun place => (provenance.origin? place.offset, place.char)) =
        back.map fun glyph => (some glyph.offset, glyph.char) := by
    induction back generalizing front with
    | nil => rfl
    | cons glyph back ih =>
      have found := origin?_width (whole ▸ offsets)
      have rest := ih (front ++ [glyph]) (by simpa using whole)
      simp only [List.map_append, List.map_singleton, width_append, width_cons, width_nil,
        Nat.add_zero] at rest
      simp only [List.map_cons, glyphsOf, found, rest]
  exact later [] glyphs rfl

/-- The visible characters of a text, each with the offset of the character that it stands for. -/
def visibleOrigins (text : List Char) (provenance : Provenance) : List (Option Nat × Char) :=
  ((glyphsOf 0 text).filter Glyph.isVisible).map fun place =>
    (provenance.origin? place.offset, place.char)

theorem visibleOrigins_eq {glyphs : List Glyph}
    (offsets : provenance.offsets = glyphs.flatMap Glyph.bytes) :
    provenance.visibleOrigins (glyphs.map Glyph.char) =
      (glyphs.filter Glyph.isVisible).map fun glyph => (some glyph.offset, glyph.char) := by
  have found := map_origin?_glyphsOf offsets
  have visible := congrArg (List.filter fun origin : Option Nat × Char => !isBlank origin.2) found
  rw [List.filter_map, List.filter_map] at visible
  exact visible

end Provenance

end CommentProse
