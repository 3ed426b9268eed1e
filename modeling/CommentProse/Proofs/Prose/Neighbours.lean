import CommentProse.Proofs.Prose.Passages
import Mathlib.Data.List.Chain
import Mathlib.Data.List.Infix

/-! # Neighbours in a passage

A passage drops blanks and joins lines, but between two visible characters it drops nothing: visible
neighbours of a passage are neighbours in its items, if a line end counts for a space
(`ProseItem.exists_neighbours_of_mem_passages`). The invariant of drafts that carries this says
besides that a draft ends with a visible character only right behind it (`Draft.Tight`).
-/

namespace CommentProse

/-- If both characters are visible, they are neighbours in the list. -/
def Glyph.Neighbours (among : List Glyph) (x y : Glyph) : Prop :=
  x.isVisible = true → y.isVisible = true → [x, y] <:+: among

namespace Glyph

variable {glyphs among : List Glyph}

theorem isChain_neighbours (inside : glyphs <:+: among) : glyphs.IsChain (Neighbours among) := by
  rw [List.isChain_iff_forall_rel_of_append_cons_cons]
  rintro x y before after rfl - -
  exact List.IsInfix.trans ⟨before, after, by simp⟩ inside

theorem isChain_neighbours_mono {wider : List Glyph} (chain : glyphs.IsChain (Neighbours among))
    (inside : among <:+: wider) : glyphs.IsChain (Neighbours wider) :=
  chain.imp fun _ _ neighbours first second => (neighbours first second).trans inside

/-- Characters are known by their bytes. -/
theorem eq_of_map_char {others : List Glyph} (chars : glyphs.map char = others.map char)
    (places : glyphs.flatMap bytes = others.flatMap bytes) : glyphs = others := by
  induction glyphs generalizing others with
  | nil => exact (List.map_eq_nil_iff.mp chars.symm).symm
  | cons glyph glyphs ih =>
    cases others with
    | nil => cases chars
    | cons other others =>
      obtain ⟨char, chars⟩ := List.cons.inj chars
      rw [List.flatMap_cons, List.flatMap_cons] at places
      have size : glyph.bytes.length = other.bytes.length := by simp [bytes, char]
      obtain ⟨here, places⟩ := List.append_inj places size
      rw [bytes_eq_cons, bytes_eq_cons] at here
      rw [ih chars places, Glyph.ext (List.cons.inj here).1 char]

end Glyph

namespace ProseItem

/-- The characters of an item, with a space for a line end. -/
def stream : ProseItem → List Glyph
  | .text fragment => fragment.glyphs
  | .lineEnd stop => [⟨stop, ' '⟩]
  | .division => []

theorem flatMap_bytes_stream (items : List ProseItem) :
    (items.flatMap stream).flatMap Glyph.bytes = items.flatMap bytes := by
  rw [List.flatMap_assoc]
  apply List.flatMap_congr
  intro item _
  cases item with
  | text fragment => exact fragment.flatMap_bytes_glyphs
  | lineEnd stop => rfl
  | division => rfl

end ProseItem

namespace Draft

variable {items : List ProseItem} {glyphs others : List Glyph} {draft : Draft}

theorem Holds.eq_of_text (holds : draft.Holds items glyphs)
    (text : draft.text = others.map Glyph.char)
    (offsets : draft.provenance.offsets = others.flatMap Glyph.bytes) : glyphs = others :=
  Glyph.eq_of_map_char (holds.text_eq.symm.trans text) (holds.offsets_eq.symm.trans offsets)

/-- The draft has these characters, nothing is dropped between two visible ones, and nothing behind
a visible one at the end. -/
structure Tight (items : List ProseItem) (glyphs : List Glyph) (draft : Draft) : Prop where
  holds : draft.Holds items glyphs
  neighbours : (glyphs ++ draft.due).IsChain (Glyph.Neighbours (items.flatMap ProseItem.stream))
  last : ∀ last ∈ (glyphs ++ draft.due).getLast?, last.isVisible = true →
    (items.flatMap ProseItem.stream).getLast? = some last

theorem tight_empty : empty.Tight [] [] := ⟨holds_empty, by simp [empty, due], by simp [empty, due]⟩

namespace Tight

/-- Behind a visible character blanks are kept. -/
theorem absorbsBlanks_of_last (tight : draft.Tight items glyphs) {last : Glyph}
    (final : (glyphs ++ draft.due).getLast? = some last) (visible : last.isVisible = true) :
    draft.absorbsBlanks = false := by
  obtain ⟨text, provenance, joint⟩ := draft
  cases joint with
  | some source =>
    rw [due, Option.toList_some, List.map_singleton, List.getLast?_concat] at final
    obtain rfl := Option.some.inj final
    cases visible
  | none =>
    rw [due_of_joint rfl, List.append_nil] at final
    obtain ⟨front, rfl⟩ := List.getLast?_eq_some_iff.mp final
    have text_eq : text = (front ++ [last]).map Glyph.char := tight.holds.text_eq
    simpa [absorbsBlanks, text_eq, Glyph.isVisible] using visible

/-- What an item without characters leaves as it is. -/
theorem skip (tight : draft.Tight items glyphs) {item : ProseItem}
    (holds : draft.Holds (items ++ [item]) glyphs)
    (nothing : ∀ last ∈ (glyphs ++ draft.due).getLast?, last.isVisible = true → item.stream = []) :
    draft.Tight (items ++ [item]) glyphs where
  holds := holds
  neighbours := by
    refine Glyph.isChain_neighbours_mono tight.neighbours ?_
    rw [List.flatMap_append]
    exact (List.prefix_append _ _).isInfix
  last := by
    intro last final visible
    rw [List.flatMap_append, List.flatMap_singleton, nothing last final visible, List.append_nil]
    exact tight.last last final visible

theorem append (tight : draft.Tight items glyphs) (fragment : Fragment) :
    ∃ longer, (draft.append fragment).Tight (items ++ [.text fragment]) longer := by
  obtain ⟨longer, holds⟩ := tight.holds.append fragment
  refine ⟨longer, ?_⟩
  obtain ⟨kept, shape⟩ : ∃ kept,
      kept = if draft.absorbsBlanks then fragment.dropWhile isBlank else fragment := ⟨_, rfl⟩
  have whole : draft.absorbsBlanks = false → kept = fragment := fun keeps => by
    rw [shape, keeps]
    rfl
  obtain ⟨blanks, parts, -⟩ : ∃ blanks, fragment.glyphs = blanks ++ kept.glyphs ∧
      blanks.filter Glyph.isVisible = [] := by
    rw [shape]
    split
    · exact fragment.glyphs_eq_blanks_append
    · exact ⟨[], rfl, rfl⟩
  rw [Draft.append, ← shape] at holds ⊢
  split at holds
  · next empty =>
    rw [if_pos empty]
    obtain rfl := tight.holds.eq_of_text holds.text_eq holds.offsets_eq
    refine tight.skip holds fun last final visible => ?_
    have keeps := whole (tight.absorbsBlanks_of_last final visible)
    rw [ProseItem.stream, ← keeps, Fragment.glyphs, List.isEmpty_iff.mp empty, glyphsOf_nil]
  · next nonempty =>
    rw [if_neg nonempty]
    obtain ⟨text_eq, offsets_eq⟩ := tight.holds.spells.joined_push kept
    have none_due := due_of_joint (joint_joined_push kept draft)
    obtain rfl := holds.eq_of_text text_eq offsets_eq
    have stream : (items ++ [ProseItem.text fragment]).flatMap ProseItem.stream =
        items.flatMap ProseItem.stream ++ fragment.glyphs := by
      rw [List.flatMap_append, List.flatMap_singleton, ProseItem.stream]
    obtain ⟨first, rest, start⟩ : ∃ first rest, kept.glyphs = first :: rest := by
      obtain ⟨c, text, written⟩ := List.exists_cons_of_ne_nil (mt List.isEmpty_iff.mpr nonempty)
      exact ⟨_, _, by rw [Fragment.glyphs, written]; rfl⟩
    refine ⟨holds, ?_, ?_⟩
    · rw [none_due, List.append_nil, stream]
      refine List.isChain_append.mpr ⟨?_, ?_, ?_⟩
      · exact Glyph.isChain_neighbours_mono tight.neighbours (List.prefix_append _ _).isInfix
      · apply Glyph.isChain_neighbours
        rw [parts, ← List.append_assoc]
        exact (List.suffix_append _ _).isInfix
      · intro last final next head visible _
        have keeps := whole (tight.absorbsBlanks_of_last final visible)
        obtain ⟨front, ends⟩ :=
          List.getLast?_eq_some_iff.mp (tight.last last final visible)
        rw [← keeps, start, ends]
        rw [start] at head
        obtain rfl := Option.some.inj head
        exact ⟨front, rest, by simp⟩
    · intro last final _
      rw [none_due, List.append_nil, start, List.getLast?_append_cons] at final
      rwa [stream, parts, start, ← List.append_assoc, List.getLast?_append_cons]

theorem endLine (tight : draft.Tight items glyphs) (stop : Nat) :
    ∃ shorter, (draft.endLine stop).Tight (items ++ [.lineEnd stop]) shorter := by
  obtain ⟨shorter, holds⟩ := tight.holds.endLine stop
  refine ⟨shorter, ?_⟩
  rw [Draft.endLine] at holds ⊢
  split at holds
  · next settled =>
    rw [if_pos settled]
    obtain rfl := tight.holds.eq_of_text holds.text_eq holds.offsets_eq
    refine tight.skip holds fun last final visible => ?_
    have keeps := tight.absorbsBlanks_of_last final visible
    simp only [absorbsBlanks, Bool.or_eq_false_iff] at keeps
    simp [keeps] at settled
  · next goesOn =>
    rw [if_neg goesOn]
    obtain ⟨kept, blanks, parts, -, -, text_eq, offsets_eq⟩ := tight.holds.spells.trimmed
    obtain rfl := holds.eq_of_text text_eq offsets_eq
    refine ⟨holds, ?_, ?_⟩
    · have chain := tight.neighbours
      rw [parts, List.append_assoc] at chain
      refine List.isChain_append.mpr ⟨?_, List.isChain_singleton _, ?_⟩
      · refine Glyph.isChain_neighbours_mono chain.left_of_append ?_
        rw [List.flatMap_append]
        exact (List.prefix_append _ _).isInfix
      · intro last _ space head _ visible
        obtain rfl := Option.some.inj head
        cases visible
    · intro last final visible
      rw [due, Option.toList_some, List.map_singleton, List.getLast?_concat] at final
      obtain rfl := Option.some.inj final
      cases visible

/-- Every item keeps a draft tight. -/
theorem extend (tight : draft.Tight items glyphs) (item : ProseItem) :
    ∃ next, (ProseItem.extend draft item).Tight (items ++ [item]) next := by
  cases item with
  | text fragment => exact tight.append fragment
  | lineEnd stop => exact tight.endLine stop
  | division => exact ⟨glyphs, tight.skip (tight.holds.skip rfl) fun _ _ _ => rfl⟩

theorem foldl (tight : draft.Tight items glyphs) (later : List ProseItem) :
    ∃ final, (later.foldl ProseItem.extend draft).Tight (items ++ later) final := by
  induction later generalizing items glyphs draft with
  | nil => exact ⟨glyphs, by rwa [List.append_nil]⟩
  | cons item later ih =>
    obtain ⟨next, step⟩ := tight.extend item
    obtain ⟨final, run⟩ := ih step
    exact ⟨final, by simpa using run⟩

end Tight

end Draft

/-- Visible neighbours of a passage are neighbours in its stretch of items. -/
theorem ProseItem.exists_neighbours_of_mem_passages {items : List ProseItem}
    {passage : List Char × Provenance} (member : passage ∈ passages items) :
    ∃ stretch ∈ stretches items, ∃ glyphs : List Glyph, passage.1 = glyphs.map Glyph.char ∧
      passage.2.offsets = glyphs.flatMap Glyph.bytes ∧
      glyphs.IsChain (Glyph.Neighbours (stretch.flatMap stream)) := by
  obtain ⟨stretch, among, finished⟩ := List.mem_filterMap.mp member
  obtain ⟨glyphs, tight⟩ := Draft.tight_empty.foldl stretch
  obtain ⟨kept, blanks, parts, -, -, text_eq, offsets_eq⟩ := tight.holds.spells.trimmed
  have chain := tight.neighbours
  rw [parts, List.append_assoc] at chain
  rw [Draft.finish?] at finished
  split at finished
  · cases finished
  · obtain rfl := Option.some.inj finished
    exact ⟨stretch, among, kept, text_eq, offsets_eq, chain.left_of_append⟩

end CommentProse
