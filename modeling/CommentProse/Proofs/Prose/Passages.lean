import CommentProse.Proofs.Prose.Drafting

/-! # The passages that items make up

Divisions cut items into stretches (`ProseItem.exists_append_of_mem_stretches`), and what no
division parts stays in one stretch (`ProseItem.exists_stretch_of_append`). A stretch with a visible
character makes a passage of all its visible characters, any other stretch makes none
(`ProseItem.finish?_foldl`); so the passages of items have the visible characters of the items, and
their bytes are among those of the items, in order.
-/

namespace CommentProse

namespace ProseItem

variable {items stretch : List ProseItem}

/-! ### Stretches -/

theorem exists_stretches_eq_cons (items : List ProseItem) :
    ∃ stretch later, stretches items = stretch :: later := by
  fun_induction stretches items with
  | case1 => exact ⟨[], [], rfl⟩
  | case2 items => exact ⟨[], stretches items, rfl⟩
  | case3 item items => exact ⟨[item], [], rfl⟩
  | case4 item items _ stretch later => exact ⟨item :: stretch, later, rfl⟩

/-- An item that is no division comes to the front of the first stretch. -/
theorem stretches_cons {item : ProseItem} {later : List (List ProseItem)} (joins : item ≠ .division)
    (rest : stretches items = stretch :: later) :
    stretches (item :: items) = (item :: stretch) :: later := by
  cases item with
  | division => exact absurd rfl joins
  | text fragment => simp only [stretches, rest]
  | lineEnd stop => simp only [stretches, rest]

/-- Nothing but divisions is lost between the stretches. -/
theorem flatMap_stretches {α : Type} (part : ProseItem → List α) (nothing : part .division = [])
    (items : List ProseItem) :
    (stretches items).flatMap (fun stretch => stretch.flatMap part) = items.flatMap part := by
  induction items with
  | nil => rfl
  | cons item items ih =>
    by_cases division : item = .division
    · rw [division, List.flatMap_cons, nothing, ← ih]
      rfl
    · obtain ⟨stretch, later, rest⟩ := exists_stretches_eq_cons items
      rw [rest, List.flatMap_cons] at ih
      rw [stretches_cons division rest, List.flatMap_cons, List.flatMap_cons, List.flatMap_cons,
        List.append_assoc, ih]

/-- The first stretch is the front of the items, and the later ones stand further behind. -/
private theorem stretches_parts {first : List ProseItem} {later : List (List ProseItem)}
    (shape : stretches items = first :: later) :
    (∃ after, items = first ++ after ∧ .division ∉ first) ∧
      ∀ other ∈ later, ∃ before after, items = before ++ other ++ after ∧ .division ∉ other := by
  induction items generalizing first later with
  | nil =>
    obtain ⟨rfl, rfl⟩ := List.cons.inj shape
    exact ⟨⟨[], rfl, by simp⟩, by simp⟩
  | cons item items ih =>
    obtain ⟨next, others, rest⟩ := exists_stretches_eq_cons items
    obtain ⟨⟨after, front, undivided⟩, behind⟩ := ih rest
    by_cases division : item = .division
    · subst division
      rw [stretches, rest] at shape
      obtain ⟨rfl, rfl⟩ := List.cons.inj shape
      refine ⟨⟨_, rfl, by simp⟩, ?_⟩
      intro other among
      rcases List.mem_cons.mp among with rfl | later
      · exact ⟨[.division], after, by rw [front]; rfl, undivided⟩
      · obtain ⟨before, after, parts, undivided⟩ := behind other later
        exact ⟨.division :: before, after, by rw [parts]; rfl, undivided⟩
    · rw [stretches_cons division rest] at shape
      obtain ⟨rfl, rfl⟩ := List.cons.inj shape
      refine ⟨⟨after, by rw [front]; rfl, ?_⟩, ?_⟩
      · exact List.not_mem_cons_of_ne_of_not_mem (Ne.symm division) undivided
      · intro other among
        obtain ⟨before, after, parts, undivided⟩ := behind other among
        exact ⟨item :: before, after, by rw [parts]; rfl, undivided⟩

/-- A stretch is a part of the items without a division in it. -/
theorem exists_append_of_mem_stretches (member : stretch ∈ stretches items) :
    ∃ before after, items = before ++ stretch ++ after ∧ .division ∉ stretch := by
  obtain ⟨front, later, shape⟩ := exists_stretches_eq_cons items
  obtain ⟨⟨after, parts, undivided⟩, behind⟩ := stretches_parts shape
  rw [shape] at member
  rcases List.mem_cons.mp member with rfl | among
  · exact ⟨[], after, parts, undivided⟩
  · exact behind stretch among

theorem visibleGlyphs_subset_of_mem_stretches (member : stretch ∈ stretches items) :
    visibleGlyphs stretch ⊆ visibleGlyphs items := by
  intro glyph here
  obtain ⟨before, after, rfl, -⟩ := exists_append_of_mem_stretches member
  obtain ⟨item, among, shown⟩ := mem_visibleGlyphs.mp here
  apply mem_visibleGlyphs.mpr
  exact ⟨item, List.mem_append_left _ (List.mem_append_right _ among), shown⟩

/-- Items without a division among them are in one stretch. -/
theorem exists_stretch_of_append (before : List ProseItem) {middle : List ProseItem}
    (after : List ProseItem) (undivided : .division ∉ middle) :
    ∃ stretch ∈ stretches (before ++ middle ++ after), middle ⊆ stretch := by
  induction before with
  | nil =>
    rw [List.nil_append]
    have front : ∃ rest later, stretches (middle ++ after) = (middle ++ rest) :: later := by
      induction middle with
      | nil => exact exists_stretches_eq_cons after
      | cons item middle ih =>
        obtain ⟨joins, undivided⟩ := List.ne_and_not_mem_of_not_mem_cons undivided
        obtain ⟨rest, later, shape⟩ := ih undivided
        exact ⟨rest, later, stretches_cons (Ne.symm joins) shape⟩
    obtain ⟨rest, later, shape⟩ := front
    rw [shape]
    exact ⟨_, List.mem_cons_self, List.subset_append_left _ _⟩
  | cons item before ih =>
    obtain ⟨stretch, member, inside⟩ := ih
    obtain ⟨first, later, shape⟩ := exists_stretches_eq_cons (before ++ middle ++ after)
    rw [shape] at member
    by_cases division : item = .division
    · refine ⟨stretch, ?_, inside⟩
      rw [division]
      exact List.mem_cons_of_mem _ (shape ▸ member)
    · have longer : stretches (item :: before ++ middle ++ after) = (item :: first) :: later :=
        stretches_cons division shape
      rw [longer]
      rcases List.mem_cons.mp member with rfl | among
      · exact ⟨_, List.mem_cons_self, fun other part => List.mem_cons_of_mem _ (inside part)⟩
      · exact ⟨stretch, List.mem_cons_of_mem _ among, inside⟩

/-! ### Passages -/

/-- The text and provenance of the passage that a stretch makes up. -/
def IsPassageOf (stretch : List ProseItem) (text : List Char) (provenance : Provenance) : Prop :=
  ∃ front last, last.isVisible = true ∧ Draft.Holds stretch (front ++ [last]) ⟨text, provenance, none⟩

/-- A stretch makes a passage if it has a visible character, and no passage otherwise. -/
theorem finish?_foldl (stretch : List ProseItem) :
    (stretch.foldl extend .empty).finish? = none ∧ visibleGlyphs stretch = [] ∨
      ∃ text provenance, (stretch.foldl extend .empty).finish? = some (text, provenance) ∧
        IsPassageOf stretch text provenance := by
  obtain ⟨glyphs, holds⟩ := Draft.holds_empty.foldl stretch
  rcases holds.finish? with ⟨nothing, invisible⟩ | ⟨text, provenance, front, last, finished⟩
  · exact .inl ⟨nothing, invisible⟩
  · exact .inr ⟨text, provenance, finished.1, front, last, finished.2⟩

namespace IsPassageOf

variable {text : List Char} {provenance : Provenance}

theorem size_eq (passage : IsPassageOf stretch text provenance) : provenance.size = width text := by
  obtain ⟨front, last, -, holds⟩ := passage
  have text_eq := holds.text_eq
  have offsets_eq := holds.offsets_eq
  dsimp only at text_eq offsets_eq
  rw [← Provenance.length_offsets, offsets_eq, text_eq, width_map_char]

theorem size_pos (passage : IsPassageOf stretch text provenance) : 0 < provenance.size := by
  obtain ⟨front, last, -, holds⟩ := passage
  have offsets_eq := holds.offsets_eq
  dsimp only at offsets_eq
  rw [← Provenance.length_offsets, offsets_eq]
  exact List.length_pos_of_mem (List.mem_flatMap.mpr
    ⟨last, List.mem_append_right _ (List.mem_singleton_self last), last.offset_mem_bytes⟩)

theorem sublist (passage : IsPassageOf stretch text provenance) :
    provenance.offsets.Sublist (stretch.flatMap bytes) := by
  obtain ⟨front, last, -, holds⟩ := passage
  have offsets_eq := holds.offsets_eq
  dsimp only at offsets_eq
  rw [offsets_eq]
  have sublist := holds.sublist
  rwa [Draft.due_of_joint rfl, List.append_nil] at sublist

/-- A passage starts with a byte of its items. -/
theorem start_mem (passage : IsPassageOf stretch text provenance) :
    (provenance.origin? 0).getD 0 ∈ stretch.flatMap bytes := by
  have size := passage.size_pos
  rw [Provenance.origin?_eq_getElem? size]
  rw [← Provenance.length_offsets] at size
  rw [List.getElem?_eq_getElem size]
  exact passage.sublist.subset (List.getElem_mem size)

/-- A visible character of a passage is the character of its items that it stands for. -/
theorem exists_visibleGlyph (passage : IsPassageOf stretch text provenance) {left right : List Char}
    {c : Char} (parts : text = left ++ c :: right) (visible : isBlank c = false) :
    ∃ glyph ∈ visibleGlyphs stretch, glyph.char = c ∧
      provenance.origin? (width left) = some glyph.offset := by
  obtain ⟨front, last, -, holds⟩ := passage
  obtain ⟨glyph, among, origin, rfl⟩ := holds.exists_glyph_of_standsAt ⟨left, right, parts, rfl⟩
  refine ⟨glyph, ?_, rfl, origin⟩
  rw [← holds.visible_eq]
  exact List.mem_filter.mpr ⟨among, by simp [Glyph.isVisible, visible]⟩

theorem visibleOrigins_eq (passage : IsPassageOf stretch text provenance) :
    provenance.visibleOrigins text =
      (visibleGlyphs stretch).map fun glyph => (some glyph.offset, glyph.char) := by
  obtain ⟨front, last, -, holds⟩ := passage
  have text_eq := holds.text_eq
  dsimp only at text_eq
  rw [text_eq, Provenance.visibleOrigins_eq holds.offsets_eq, holds.visible_eq]

end IsPassageOf

theorem isPassageOf_of_finish? {text : List Char} {provenance : Provenance}
    (finished : (stretch.foldl extend .empty).finish? = some (text, provenance)) :
    IsPassageOf stretch text provenance := by
  rcases finish?_foldl stretch with ⟨nothing, -⟩ | ⟨_, _, made, isPassage⟩
  · rw [nothing] at finished
    cases finished
  · obtain ⟨rfl, rfl⟩ := Prod.mk.inj (Option.some.inj (made.symm.trans finished))
    exact isPassage

/-- Every passage is that of a stretch. -/
theorem exists_stretch_of_mem_passages {passage : List Char × Provenance}
    (member : passage ∈ passages items) :
    ∃ stretch ∈ stretches items, IsPassageOf stretch passage.1 passage.2 := by
  obtain ⟨stretch, among, finished⟩ := List.mem_filterMap.mp member
  exact ⟨stretch, among, isPassageOf_of_finish? finished⟩

/-- Every visible character of a stretch is in a passage. -/
theorem exists_passage_of_mem_visibleGlyphs (member : stretch ∈ stretches items) {glyph : Glyph}
    (visible : glyph ∈ visibleGlyphs stretch) :
    ∃ passage ∈ passages items, IsPassageOf stretch passage.1 passage.2 := by
  rcases finish?_foldl stretch with ⟨-, invisible⟩ | ⟨text, provenance, made, isPassage⟩
  · rw [invisible] at visible
    cases visible
  · exact ⟨(text, provenance), List.mem_filterMap.mpr ⟨stretch, member, made⟩, isPassage⟩

/-- The bytes of passages are among those of the items, in order. -/
theorem sublist_offsets_passages (items : List ProseItem) :
    ((passages items).flatMap fun passage => passage.2.offsets).Sublist (items.flatMap bytes) := by
  rw [passages, ← flatMap_stretches bytes rfl items]
  induction stretches items with
  | nil => exact .refl _
  | cons stretch later ih =>
    rw [List.filterMap_cons, List.flatMap_cons]
    rcases finish?_foldl stretch with ⟨nothing, -⟩ | ⟨text, provenance, made, isPassage⟩
    · rw [nothing]
      exact ih.trans (List.sublist_append_right _ _)
    · rw [made]
      exact isPassage.sublist.append ih

/-- The visible characters of passages are those of the items, in order. -/
theorem visibleOrigins_passages (items : List ProseItem) :
    (passages items).flatMap (fun passage => passage.2.visibleOrigins passage.1) =
      (visibleGlyphs items).map fun glyph => (some glyph.offset, glyph.char) := by
  rw [passages, visibleGlyphs, ← flatMap_stretches glyphs rfl items]
  induction stretches items with
  | nil => rfl
  | cons stretch later ih =>
    rw [List.filterMap_cons, List.flatMap_cons, List.filter_append, List.map_append, ← ih]
    rcases finish?_foldl stretch with ⟨nothing, invisible⟩ | ⟨text, provenance, made, isPassage⟩
    · rw [visibleGlyphs] at invisible
      rw [nothing, invisible]
      rfl
    · have origins := isPassage.visibleOrigins_eq
      rw [visibleGlyphs] at origins
      rw [made, List.flatMap_cons, origins]

end ProseItem

end CommentProse
