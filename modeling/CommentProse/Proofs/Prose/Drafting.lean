import CommentProse.Proofs.Prose.Offsets
import CommentProse.Prose.Passage
import Mathlib.Data.List.Basic

/-! # What a draft holds

A draft grows item by item. `Draft.Holds` ties it to the items that were worked into it: its text
and its provenance are those of one list of characters, each of which comes from an item or is the
space that joins two lines; no visible character of the items is missing, and the bytes of all
characters, with the joint that is still due, are among those of the items, in order. Every item
keeps this (`Draft.Holds.extend`), so it holds of every draft (`Draft.Holds.foldl`), and finishing
only drops blanks at the end (`Draft.Holds.finish?`).
-/

namespace CommentProse

namespace ProseItem

/-- The characters that an item brings. -/
def glyphs : ProseItem → List Glyph
  | .text fragment => fragment.glyphs
  | .lineEnd _ => []
  | .division => []

/-- The offsets that an item brings: those of its bytes, or that of the line end. -/
def bytes : ProseItem → List Nat
  | .text fragment => fragment.bytes
  | .lineEnd stop => [stop]
  | .division => []

/-- A character of the items, or a space that stands for a blank of theirs or for a line end. -/
def Yield (items : List ProseItem) (glyph : Glyph) : Prop :=
  glyph ∈ items.flatMap glyphs ∨
    glyph.char = ' ' ∧
      ((∃ blank ∈ items.flatMap glyphs, blank.offset = glyph.offset ∧ blank.isVisible = false) ∨
        .lineEnd glyph.offset ∈ items)

/-- The visible characters of items, in order. -/
def visibleGlyphs (items : List ProseItem) : List Glyph :=
  (items.flatMap glyphs).filter Glyph.isVisible

theorem offset_mem_bytes {item : ProseItem} {glyph : Glyph} (member : glyph ∈ item.glyphs) :
    glyph.offset ∈ item.bytes := by
  cases item with
  | text fragment => exact Fragment.offset_mem_bytes member
  | lineEnd stop => cases member
  | division => cases member

/-- Only text brings characters. -/
theorem exists_text_of_mem_glyphs {item : ProseItem} {glyph : Glyph} (member : glyph ∈ item.glyphs) :
    ∃ fragment, item = .text fragment := by
  cases item with
  | text fragment => exact ⟨fragment, rfl⟩
  | lineEnd stop => cases member
  | division => cases member

theorem mem_visibleGlyphs {items : List ProseItem} {glyph : Glyph} :
    glyph ∈ visibleGlyphs items ↔
      ∃ item ∈ items, glyph ∈ item.glyphs ∧ glyph.isVisible = true := by
  rw [visibleGlyphs, List.mem_filter, List.mem_flatMap]
  constructor
  · rintro ⟨⟨item, among, inside⟩, visible⟩
    exact ⟨item, among, inside, visible⟩
  · rintro ⟨item, among, inside, visible⟩
    exact ⟨⟨item, among, inside⟩, visible⟩

theorem bytes_concat (items : List ProseItem) (item : ProseItem) :
    (items ++ [item]).flatMap bytes = items.flatMap bytes ++ item.bytes := by
  rw [List.flatMap_append, List.flatMap_singleton]

theorem glyphs_concat (items : List ProseItem) (item : ProseItem) :
    (items ++ [item]).flatMap glyphs = items.flatMap glyphs ++ item.glyphs := by
  rw [List.flatMap_append, List.flatMap_singleton]

theorem visibleGlyphs_concat (items : List ProseItem) (item : ProseItem) :
    visibleGlyphs (items ++ [item]) = visibleGlyphs items ++ item.glyphs.filter Glyph.isVisible := by
  rw [visibleGlyphs, glyphs_concat, List.filter_append, visibleGlyphs]

theorem Yield.append {items : List ProseItem} {glyph : Glyph} (yields : Yield items glyph)
    (later : List ProseItem) : Yield (items ++ later) glyph := by
  rw [Yield, List.flatMap_append]
  rcases yields with member | ⟨space, ⟨blank, member, same⟩ | member⟩
  · exact .inl (List.mem_append_left _ member)
  · exact .inr ⟨space, .inl ⟨blank, List.mem_append_left _ member, same⟩⟩
  · exact .inr ⟨space, .inr (List.mem_append_left _ member)⟩

/-- A space may stand in for a blank. -/
theorem Yield.space {items : List ProseItem} {blank : Glyph} (yields : Yield items blank)
    (hidden : blank.isVisible = false) : Yield items ⟨blank.offset, ' '⟩ := by
  rcases yields with member | ⟨-, stands⟩
  · exact .inr ⟨rfl, .inl ⟨blank, member, rfl, hidden⟩⟩
  · exact .inr ⟨rfl, stands⟩

end ProseItem

namespace Glyph

@[simp] theorem bytes_space (offset : Nat) : (Glyph.mk offset ' ').bytes = [offset] := rfl

@[simp] theorem isVisible_space (offset : Nat) : (Glyph.mk offset ' ').isVisible = false :=
  rfl

/-- Trimming a text keeps its characters up to the last visible one. -/
theorem exists_trimmed (glyphs : List Glyph) :
    ∃ kept blanks, glyphs = kept ++ blanks ∧ trimEnd (glyphs.map char) = kept.map char ∧
      blanks.filter isVisible = [] ∧ ∀ last ∈ kept.getLast?, last.isVisible = true := by
  induction glyphs with
  | nil => exact ⟨[], [], rfl, rfl, rfl, by simp⟩
  | cons glyph glyphs ih =>
    obtain ⟨kept, blanks, rfl, trimmed, invisible, ends⟩ := ih
    rw [List.map_cons, trimEnd, trimmed]
    cases kept with
    | nil =>
      by_cases blank : isBlank glyph.char = true
      · refine ⟨[], glyph :: blanks, rfl, by simp [blank], ?_, by simp⟩
        rwa [List.filter_cons_of_neg (by simp [isVisible, blank])]
      · exact ⟨[glyph], blanks, rfl, by simp [blank], invisible, by simp [isVisible, blank]⟩
    | cons first kept =>
      refine ⟨glyph :: first :: kept, blanks, rfl, rfl, invisible, ?_⟩
      rwa [List.getLast?_cons_cons]

end Glyph

namespace Draft

/-- The space that is due before the next fragment. -/
def due (draft : Draft) : List Glyph := draft.joint.toList.map fun source => ⟨source, ' '⟩

theorem due_of_joint {draft : Draft} (joined : draft.joint = none) : draft.due = [] := by
  rw [due, joined]
  rfl

/-- The draft has these characters. -/
structure Spells (glyphs : List Glyph) (draft : Draft) : Prop where
  text_eq : draft.text = glyphs.map Glyph.char
  offsets_eq : draft.provenance.offsets = glyphs.flatMap Glyph.bytes

/-- The draft has these characters, and they are what the items make up. -/
structure Holds (items : List ProseItem) (glyphs : List Glyph) (draft : Draft) : Prop where
  text_eq : draft.text = glyphs.map Glyph.char
  offsets_eq : draft.provenance.offsets = glyphs.flatMap Glyph.bytes
  /-- No visible character is lost, and none is added. -/
  visible_eq : glyphs.filter Glyph.isVisible = ProseItem.visibleGlyphs items
  /-- The bytes stand in the order of the items, and each at most once. -/
  sublist : ((glyphs ++ draft.due).flatMap Glyph.bytes).Sublist (items.flatMap ProseItem.bytes)
  yields : ∀ glyph ∈ glyphs ++ draft.due, ProseItem.Yield items glyph

variable {items : List ProseItem} {glyphs : List Glyph} {draft : Draft}

theorem holds_empty : empty.Holds [] [] := ⟨rfl, rfl, rfl, .refl _, by simp [empty, due]⟩

namespace Spells

/-- Writing the due space and then text. -/
theorem joined_push (spells : draft.Spells glyphs) (fragment : Fragment) :
    (draft.joined.push fragment).Spells (glyphs ++ draft.due ++ fragment.glyphs) := by
  obtain ⟨text, provenance, joint⟩ := draft
  have text_eq := spells.text_eq
  have offsets_eq := spells.offsets_eq
  dsimp only at text_eq offsets_eq
  have chars : fragment.glyphs.map Glyph.char = fragment.text := map_char_glyphsOf _ _
  have bytes : fragment.glyphs.flatMap Glyph.bytes = List.range' fragment.start (width fragment.text) :=
    fragment.flatMap_bytes_glyphs
  cases joint with
  | none =>
    constructor
    · simp [joined, push, due, text_eq, chars]
    · simp [joined, push, due, Provenance.offsets_push, offsets_eq, bytes]
  | some source =>
    constructor
    · simp [joined, push, due, text_eq, chars]
    · have space : ' '.utf8Size = 1 := rfl
      simp [joined, push, due, Provenance.offsets_push, offsets_eq, bytes, space]

/-- Trimming drops blanks, and keeps text and provenance together. -/
theorem trimmed (spells : draft.Spells glyphs) :
    ∃ kept blanks, glyphs = kept ++ blanks ∧ blanks.filter Glyph.isVisible = [] ∧
      (∀ last ∈ kept.getLast?, last.isVisible = true) ∧ draft.trimmed.Spells kept := by
  obtain ⟨kept, blanks, parts, trimmed, invisible, ends⟩ := Glyph.exists_trimmed glyphs
  rw [← spells.text_eq] at trimmed
  refine ⟨kept, blanks, parts, invisible, ends, trimmed, ?_⟩
  rw [Draft.trimmed, Provenance.offsets_take, spells.offsets_eq, parts, List.flatMap_append, trimmed,
    width_map_char, List.take_left]

end Spells

theorem joint_joined_push (fragment : Fragment) (draft : Draft) :
    (draft.joined.push fragment).joint = none := by
  rw [joined]
  split
  · rfl
  · next joined => exact joined

namespace Holds

theorem spells (holds : draft.Holds items glyphs) : draft.Spells glyphs :=
  ⟨holds.text_eq, holds.offsets_eq⟩

/-- Each character of the draft is one of its characters, and the provenance names its offset. -/
theorem exists_glyph_of_standsAt (holds : draft.Holds items glyphs) {position : Nat} {c : Char}
    (stands : StandsAt draft.text position c) :
    ∃ glyph ∈ glyphs, draft.provenance.origin? position = some glyph.offset ∧ c = glyph.char := by
  rw [holds.text_eq] at stands
  have place := List.mem_map_of_mem
    (f := fun place => (draft.provenance.origin? place.offset, place.char)) stands.mem_glyphsOf
  rw [Provenance.map_origin?_glyphsOf holds.offsets_eq] at place
  obtain ⟨glyph, among, same⟩ := List.mem_map.mp place
  obtain ⟨origin, char⟩ := Prod.mk.inj same
  exact ⟨glyph, among, origin.symm, char.symm⟩

/-- Behind an item that brings no visible character a draft may stay as it is. -/
theorem skip (holds : draft.Holds items glyphs) {item : ProseItem}
    (invisible : item.glyphs.filter Glyph.isVisible = []) : draft.Holds (items ++ [item]) glyphs where
  text_eq := holds.text_eq
  offsets_eq := holds.offsets_eq
  visible_eq := by
    rw [ProseItem.visibleGlyphs_concat, invisible, List.append_nil, holds.visible_eq]
  sublist := by
    rw [ProseItem.bytes_concat]
    exact holds.sublist.trans (List.sublist_append_left _ _)
  yields := fun glyph member => (holds.yields glyph member).append [item]

/-- Going on with a fragment keeps all of it but blanks at its front. -/
theorem append (holds : draft.Holds items glyphs) (fragment : Fragment) :
    ∃ longer, (draft.append fragment).Holds (items ++ [.text fragment]) longer := by
  obtain ⟨visible, shape⟩ : ∃ visible,
      visible = if draft.absorbsBlanks then fragment.dropWhile isBlank else fragment := ⟨_, rfl⟩
  obtain ⟨blanks, parts, invisible⟩ : ∃ blanks, fragment.glyphs = blanks ++ visible.glyphs ∧
      blanks.filter Glyph.isVisible = [] := by
    rw [shape]
    split
    · exact fragment.glyphs_eq_blanks_append
    · exact ⟨[], rfl, rfl⟩
  rw [Draft.append, ← shape]
  split
  · next empty =>
    have nothing : visible.glyphs = [] := by
      rw [Fragment.glyphs, List.isEmpty_iff.mp empty, glyphsOf_nil]
    refine ⟨glyphs, holds.skip ?_⟩
    change fragment.glyphs.filter Glyph.isVisible = []
    rw [parts, nothing, List.append_nil, invisible]
  · obtain ⟨text_eq, offsets_eq⟩ := holds.spells.joined_push visible
    have none_due := due_of_joint (joint_joined_push visible draft)
    have spaces : draft.due.filter Glyph.isVisible = [] := by
      simp [due, List.filter_eq_nil_iff]
    refine ⟨glyphs ++ draft.due ++ visible.glyphs, text_eq, offsets_eq, ?_, ?_, ?_⟩
    · rw [ProseItem.visibleGlyphs_concat, ProseItem.glyphs, parts]
      simp only [List.filter_append, spaces, holds.visible_eq, invisible, List.append_nil,
        List.nil_append]
    · rw [none_due, List.append_nil, List.flatMap_append, ProseItem.bytes_concat]
      apply holds.sublist.append
      rw [ProseItem.bytes, ← fragment.flatMap_bytes_glyphs, parts, List.flatMap_append]
      exact List.sublist_append_right _ _
    · intro glyph member
      rw [none_due, List.append_nil] at member
      rcases List.mem_append.mp member with before | here
      · exact (holds.yields glyph before).append _
      · left
        rw [ProseItem.glyphs_concat, ProseItem.glyphs, parts]
        exact List.mem_append_right _ (List.mem_append_right _ here)

/-- The space that joins the next line stands for the first of the blanks that are dropped at the
end of the line, or for the line end. -/
theorem joint_eq (holds : draft.Holds items glyphs) {kept blanks : List Glyph}
    (parts : glyphs = kept ++ blanks) (trimmed : trimEnd draft.text = kept.map Glyph.char)
    (stop : Nat) :
    (if width (trimEnd draft.text) < width draft.text
      then (draft.provenance.origin? (width (trimEnd draft.text))).getD stop else stop) =
      (blanks.head?.map Glyph.offset).getD stop := by
  have total : width draft.text = width (kept.map Glyph.char) + width (blanks.map Glyph.char) := by
    rw [holds.text_eq, parts, List.map_append, width_append]
  cases blanks with
  | nil =>
    rw [if_neg]
    · rfl
    · rw [trimmed, total]
      exact Nat.lt_irrefl _
  | cons blank blanks =>
    have positive := blank.char.utf8Size_pos
    have found := Provenance.origin?_width (parts ▸ holds.offsets_eq)
    rw [if_pos, trimmed, found]
    · rfl
    · rw [trimmed, total, List.map_cons, width_cons]
      omega

/-- Ending a line drops the blanks at its end, and one space is due instead. -/
theorem endLine (holds : draft.Holds items glyphs) (stop : Nat) :
    ∃ shorter, (draft.endLine stop).Holds (items ++ [.lineEnd stop]) shorter := by
  rw [Draft.endLine]
  split
  · exact ⟨glyphs, holds.skip rfl⟩
  · next goesOn =>
    simp only [Bool.or_eq_true, not_or, Bool.not_eq_true, Option.isSome_eq_false_iff,
      Option.isNone_iff_eq_none] at goesOn
    have none_due : draft.due = [] := due_of_joint goesOn.2
    obtain ⟨kept, blanks, parts, invisible, -, text, offsets⟩ := holds.spells.trimmed
    have sublist := holds.sublist
    have yields := holds.yields
    rw [none_due, List.append_nil, parts] at sublist yields
    dsimp only
    rw [holds.joint_eq parts text]
    refine ⟨kept, text, offsets, ?_, ?_, ?_⟩
    · rw [ProseItem.visibleGlyphs_concat, ProseItem.glyphs, List.filter_nil, List.append_nil,
        ← holds.visible_eq, parts, List.filter_append, invisible, List.append_nil]
    · rw [ProseItem.bytes_concat, List.flatMap_append]
      rw [List.flatMap_append] at sublist
      cases blanks with
      | nil => exact ((List.sublist_append_left _ _).trans sublist).append (.refl _)
      | cons blank blanks =>
        refine List.Sublist.trans ?_ (sublist.trans (List.sublist_append_left _ _))
        apply (List.Sublist.refl _).append
        simp [due, Glyph.bytes_eq_cons blank]
    · intro glyph member
      rcases List.mem_append.mp member with before | now
      · exact (yields glyph (List.mem_append_left _ before)).append _
      · obtain rfl : glyph = ⟨(blanks.head?.map Glyph.offset).getD stop, ' '⟩ := by
          simpa [due] using now
        cases blanks with
        | nil => exact .inr ⟨rfl, .inr (List.mem_append_right _ (List.mem_singleton_self _))⟩
        | cons blank blanks =>
          have stands := yields blank (List.mem_append_right _ List.mem_cons_self)
          have hidden : blank.isVisible = false := by
            simpa using List.filter_eq_nil_iff.mp invisible blank List.mem_cons_self
          exact (stands.space hidden).append _

/-- Every item keeps what holds of a draft. -/
theorem extend (holds : draft.Holds items glyphs) (item : ProseItem) :
    ∃ next, (ProseItem.extend draft item).Holds (items ++ [item]) next := by
  cases item with
  | text fragment => exact holds.append fragment
  | lineEnd stop => exact holds.endLine stop
  | division => exact ⟨glyphs, holds.skip rfl⟩

theorem foldl (holds : draft.Holds items glyphs) (later : List ProseItem) :
    ∃ final, (later.foldl ProseItem.extend draft).Holds (items ++ later) final := by
  induction later generalizing items glyphs draft with
  | nil => exact ⟨glyphs, by rwa [List.append_nil]⟩
  | cons item later ih =>
    obtain ⟨next, step⟩ := holds.extend item
    obtain ⟨final, run⟩ := ih step
    exact ⟨final, by simpa using run⟩

/-- A finished draft ends with a visible character, and a draft without a visible character is not
finished. -/
theorem finish? (holds : draft.Holds items glyphs) :
    draft.finish? = none ∧ ProseItem.visibleGlyphs items = [] ∨
      ∃ text provenance front last, draft.finish? = some (text, provenance) ∧
        last.isVisible = true ∧ Holds items (front ++ [last]) ⟨text, provenance, none⟩ := by
  obtain ⟨kept, blanks, parts, invisible, ends, text, offsets⟩ := holds.spells.trimmed
  have visible : kept.filter Glyph.isVisible = ProseItem.visibleGlyphs items := by
    rw [← holds.visible_eq, parts, List.filter_append, invisible, List.append_nil]
  rw [Draft.finish?]
  rcases List.eq_nil_or_concat' kept with rfl | ⟨front, last, rfl⟩
  · left
    rw [text]
    exact ⟨rfl, visible.symm⟩
  · right
    rw [if_neg (by simp [text])]
    refine ⟨_, _, front, last, rfl, ends last (by simp), text, offsets, visible, ?_, ?_⟩
    · have sublist := holds.sublist
      rw [parts, List.append_assoc, List.flatMap_append] at sublist
      rw [due_of_joint rfl, List.append_nil]
      exact (List.sublist_append_left _ _).trans sublist
    · intro glyph member
      rw [due_of_joint rfl, List.append_nil] at member
      apply holds.yields glyph
      rw [parts]
      exact List.mem_append_left _ (List.mem_append_left _ member)

end Holds

end Draft

end CommentProse
