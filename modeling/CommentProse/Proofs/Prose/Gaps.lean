import CommentProse.Proofs.Prose.Neighbours
import CommentProse.Proofs.Text.Trimming

/-! # What stands between two visible characters

Behind a visible character a draft has a run of blanks, in which a space that is due counts. More
blanks are dropped when there is a run and become the run when there is none; the end of a line
makes one space of it, whatever it was (`ProseItem.runAfter`, `Draft.Behind.foldl`). The next
visible character ends the run, and what comes later leaves all that stands before a visible
character as it is (`Draft.Reached.extend`). So a passage has, between two visible characters that
follow each other, the run that the items between the two leave
(`ProseItem.exists_run_of_passage`).
-/

namespace CommentProse

/-- Around an item an ordered list is cut in one way. -/
theorem append_cons_inj_of_pairwise {α : Type} {relation : α → α → Prop}
    {front back before after : List α} {a : α} (ordered : (front ++ a :: back).Pairwise relation)
    (irrefl : ¬relation a a) (same : front ++ a :: back = before ++ a :: after) :
    front = before ∧ back = after := by
  rw [List.pairwise_append, List.pairwise_cons] at ordered
  obtain ⟨-, ⟨behind, -⟩, ahead⟩ := ordered
  have notFront : a ∉ front := fun member => irrefl (ahead a member a List.mem_cons_self)
  have notBack : a ∉ back := fun member => irrefl (behind a member)
  obtain ⟨sameFront, -, sameBack⟩ := (List.append_cons_inj_of_notMem notFront notBack).mp same
  exact ⟨sameFront, sameBack⟩

/-- Between neighbours of an ordered list stands nothing, however the list is cut around them. -/
theorem eq_nil_of_pairwise {α : Type} {relation : α → α → Prop}
    {front back before between after : List α} {a b : α}
    (ordered : (front ++ a :: b :: back).Pairwise relation) (irrefl : ∀ item, ¬relation item item)
    (same : front ++ a :: b :: back = before ++ a :: (between ++ b :: after)) : between = [] := by
  obtain ⟨-, rest⟩ := append_cons_inj_of_pairwise ordered (irrefl a) same
  have later := (List.pairwise_cons.mp (List.pairwise_append.mp ordered).2.1).2
  obtain ⟨nothing, -⟩ := @append_cons_inj_of_pairwise _ _ [] _ _ _ b later (irrefl b) rest
  exact nothing.symm

/-- Characters whose bytes are in order are in order. -/
theorem Glyph.pairwise_offset {glyphs : List Glyph}
    (ordered : (glyphs.flatMap bytes).Pairwise (· < ·)) :
    glyphs.Pairwise fun x y => x.offset < y.offset := by
  refine (List.pairwise_flatMap.mp ordered).2.imp ?_
  intro x y order
  exact order _ x.offset_mem_bytes _ y.offset_mem_bytes

theorem Glyph.allBlank_map_char {glyphs : List Glyph} :
    allBlank (glyphs.map char) = true ↔ glyphs.filter isVisible = [] := by
  simp [allBlank, List.filter_eq_nil_iff, isVisible]

/-- Dropping blanks at the front of a fragment drops its first characters. -/
theorem Fragment.glyphs_dropWhile_isBlank (fragment : Fragment) :
    (fragment.dropWhile isBlank).glyphs = fragment.glyphs.dropWhile (isBlank ·.char) := by
  obtain ⟨start, text⟩ := fragment
  simp only [glyphs, dropWhile]
  induction text generalizing start with
  | nil => rfl
  | cons c text ih =>
    by_cases blank : isBlank c = true
    · have rest := ih (start + c.utf8Size)
      simp only [List.takeWhile_cons_of_pos blank, List.dropWhile_cons_of_pos blank, width_cons,
        glyphsOf]
      rw [← Nat.add_assoc, rest]
      simp [blank]
    · simp [blank, glyphsOf]

/-- A fragment without visible characters is all blank. -/
theorem Fragment.allBlank_text {fragment : Fragment} :
    allBlank fragment.text = true ↔ fragment.glyphs.filter Glyph.isVisible = [] := by
  rw [← Glyph.allBlank_map_char, glyphs, map_char_glyphsOf]

theorem Fragment.text_eq_of_glyphs {fragment : Fragment} {front back : List Glyph} {glyph : Glyph}
    (parts : fragment.glyphs = front ++ glyph :: back) :
    fragment.text = front.map Glyph.char ++ glyph.char :: back.map Glyph.char := by
  have chars := congrArg (List.map Glyph.char) parts
  rwa [glyphs, map_char_glyphsOf, List.map_append, List.map_cons] at chars

namespace ProseItem

/-- The run of blanks behind a visible character after one more item without visible characters. -/
def runAfter (run : List Char) : ProseItem → List Char
  | .text fragment => if run.isEmpty then fragment.text else run
  | .lineEnd _ => [' ']
  | .division => run

/-- Once a line has ended, the run is one space. -/
theorem foldl_runAfter_of_lineEnd {items : List ProseItem} {stop : Nat}
    (member : .lineEnd stop ∈ items) (run : List Char) : items.foldl runAfter run = [' '] := by
  have stays (items : List ProseItem) : items.foldl runAfter [' '] = [' '] := by
    induction items with
    | nil => rfl
    | cons item items ih => cases item <;> exact ih
  obtain ⟨before, after, rfl⟩ := List.append_of_mem member
  rw [List.foldl_append, List.foldl_cons]
  exact stays after

end ProseItem

namespace Draft

variable {glyphs blanks : List Glyph} {x : Glyph} {draft : Draft}

/-- Trimming stops at a visible character. -/
theorem Spells.trimmed_of_visible {rest : List Glyph} (spells : draft.Spells (glyphs ++ x :: rest))
    (visible : x.isVisible = true) :
    ∃ kept dropped, rest = kept ++ dropped ∧ (∀ last ∈ kept.getLast?, last.isVisible = true) ∧
      draft.trimmed.Spells (glyphs ++ x :: kept) := by
  obtain ⟨front, dropped, parts, invisible, ends, trimmed⟩ := spells.trimmed
  rw [List.append_cons] at parts
  rcases List.append_eq_append_iff.mp parts with ⟨kept, rfl, rfl⟩ | ⟨more, whole, rfl⟩
  · refine ⟨kept, dropped, rfl, ?_, by simpa using trimmed⟩
    intro last final
    apply ends
    rw [List.getLast?_append, final]
    rfl
  · rcases List.eq_nil_or_concat' more with rfl | ⟨others, last, rfl⟩
    · rw [List.append_nil] at whole
      exact ⟨[], rest, rfl, by simp, whole ▸ trimmed⟩
    · -- Nothing visible is dropped.
      rw [← List.append_assoc] at whole
      obtain rfl := List.singleton_inj.mp (List.append_inj' whole rfl).2
      have hidden := List.filter_eq_nil_iff.mp invisible x (by simp)
      exact absurd visible hidden

/-! ### Behind a visible character -/

/-- Behind the visible character the draft has blanks, or a space is due. -/
structure Behind (glyphs : List Glyph) (x : Glyph) (blanks : List Glyph) (draft : Draft) :
    Prop where
  spells : draft.Spells (glyphs ++ x :: blanks)
  visible : x.isVisible = true
  invisible : blanks.filter Glyph.isVisible = []
  alone : draft.joint.isSome = true → blanks = []

/-- The run of blanks, in which a space that is due counts. -/
def run (blanks : List Glyph) (draft : Draft) : List Char :=
  (blanks ++ draft.due).map Glyph.char

theorem run_of_joint (none_due : draft.joint = none) : draft.run blanks = blanks.map Glyph.char := by
  rw [run, due_of_joint none_due, List.append_nil]

theorem run_isEmpty : (draft.run blanks).isEmpty = true ↔ blanks = [] ∧ draft.due = [] := by
  rw [run, List.isEmpty_iff, List.map_eq_nil_iff, List.append_eq_nil_iff]

namespace Behind

/-- Blanks are dropped when there is a run. -/
theorem absorbsBlanks_eq (behind : draft.Behind glyphs x blanks) :
    draft.absorbsBlanks = !(draft.run blanks).isEmpty := by
  obtain ⟨text, provenance, joint⟩ := draft
  have text_eq : text = (glyphs ++ x :: blanks).map Glyph.char := behind.spells.text_eq
  cases joint with
  | some source => simp [absorbsBlanks, run, due]
  | none =>
    rw [run_of_joint rfl]
    rcases List.eq_nil_or_concat' blanks with rfl | ⟨front, last, rfl⟩
    · have visible : isBlank x.char = false := by simpa [Glyph.isVisible] using behind.visible
      simp [absorbsBlanks, text_eq, visible]
    · have blank : isBlank last.char = true := by
        have hidden := List.filter_eq_nil_iff.mp behind.invisible last (by simp)
        simpa [Glyph.isVisible] using hidden
      have final : text.getLast? = some last.char := by
        rw [text_eq, List.getLast?_map, ← List.cons_append, ← List.append_assoc,
          List.getLast?_concat, Option.map_some]
      simp [absorbsBlanks, final, blank]

/-- Text without visible characters is the run if there is none, and dropped otherwise. -/
theorem append (behind : draft.Behind glyphs x blanks) {fragment : Fragment}
    (blank : allBlank fragment.text = true) :
    ∃ more, (draft.append fragment).Behind glyphs x more ∧
      (draft.append fragment).run more = ProseItem.runAfter (draft.run blanks) (.text fragment) := by
  rw [Draft.append, behind.absorbsBlanks_eq, ProseItem.runAfter]
  by_cases empty : (draft.run blanks).isEmpty = true
  · obtain ⟨rfl, none_due⟩ := run_isEmpty.mp empty
    rw [empty, Bool.not_true, if_neg Bool.false_ne_true, if_pos rfl]
    by_cases nothing : fragment.isEmpty = true
    · rw [if_pos nothing]
      refine ⟨[], behind, ?_⟩
      rw [List.isEmpty_iff.mp nothing, List.isEmpty_iff.mp empty]
    · rw [if_neg nothing]
      have spells := behind.spells.joined_push fragment
      rw [none_due, List.append_nil, List.append_assoc] at spells
      have joint := joint_joined_push fragment draft
      refine ⟨fragment.glyphs, ⟨spells, behind.visible, Fragment.allBlank_text.mp blank, ?_⟩, ?_⟩
      · simp [joint]
      · rw [run_of_joint joint, Fragment.glyphs, map_char_glyphsOf]
  · have dropped : (fragment.dropWhile isBlank).isEmpty = true := by
      rw [Fragment.isEmpty, List.isEmpty_iff]
      exact List.dropWhile_eq_nil_iff.mpr (List.all_eq_true.mp blank)
    rw [Bool.eq_false_iff.mpr empty, Bool.not_false, if_pos rfl, if_pos dropped,
      if_neg Bool.false_ne_true]
    exact ⟨blanks, behind, rfl⟩

/-- The end of a line makes one space of the run. -/
theorem endLine (behind : draft.Behind glyphs x blanks) (stop : Nat) :
    ∃ fewer, (draft.endLine stop).Behind glyphs x fewer ∧
      (draft.endLine stop).run fewer = [' '] := by
  have text_eq := behind.spells.text_eq
  rw [Draft.endLine]
  split
  · next settled =>
    have due : draft.joint.isSome = true := by simpa [text_eq] using settled
    refine ⟨blanks, behind, ?_⟩
    obtain ⟨source, joint⟩ := Option.isSome_iff_exists.mp due
    rw [behind.alone due, run, Draft.due, joint]
    rfl
  · obtain ⟨kept, dropped, rfl, ends, spells⟩ :=
      behind.spells.trimmed_of_visible behind.visible
    have invisible := behind.invisible
    rw [List.filter_append, List.append_eq_nil_iff] at invisible
    obtain rfl : kept = [] := by
      rcases List.eq_nil_or_concat' kept with rfl | ⟨front, last, rfl⟩
      · rfl
      · have hidden := List.filter_eq_nil_iff.mp invisible.1 last (by simp)
        exact absurd (ends last (by simp)) hidden
    exact ⟨[], ⟨⟨spells.text_eq, spells.offsets_eq⟩, behind.visible, rfl, fun _ => rfl⟩, rfl⟩

/-- Items without visible characters leave the run that they make. -/
theorem foldl (behind : draft.Behind glyphs x blanks) {items : List ProseItem}
    (invisible : ProseItem.visibleGlyphs items = []) :
    ∃ more, (items.foldl ProseItem.extend draft).Behind glyphs x more ∧
      (items.foldl ProseItem.extend draft).run more =
        items.foldl ProseItem.runAfter (draft.run blanks) := by
  induction items generalizing draft blanks with
  | nil => exact ⟨blanks, behind, rfl⟩
  | cons item items ih =>
    rw [ProseItem.visibleGlyphs, List.flatMap_cons, List.filter_append,
      List.append_eq_nil_iff] at invisible
    obtain ⟨more, next, run⟩ : ∃ more, (ProseItem.extend draft item).Behind glyphs x more ∧
        (ProseItem.extend draft item).run more = ProseItem.runAfter (draft.run blanks) item := by
      cases item with
      | text fragment => exact behind.append (Fragment.allBlank_text.mpr invisible.1)
      | lineEnd stop => exact behind.endLine stop
      | division => exact ⟨blanks, behind, rfl⟩
    rw [List.foldl_cons, List.foldl_cons, ← run]
    exact ih next invisible.2

end Behind

/-! ### Up to a visible character -/

/-- Text is appended from its first visible character on, and the blanks before it are kept unless
blanks are dropped. -/
theorem Spells.append (spells : draft.Spells glyphs) {fragment : Fragment}
    {front back : List Glyph} (parts : fragment.glyphs = front ++ x :: back)
    (visible : x.isVisible = true) :
    (draft.append fragment).Spells (glyphs ++ draft.due ++
      (if draft.absorbsBlanks then front.dropWhile (isBlank ·.char) else front) ++ x :: back) ∧
      (draft.append fragment).joint = none := by
  have blank : isBlank x.char = false := by simpa [Glyph.isVisible] using visible
  obtain ⟨kept, shape⟩ : ∃ kept,
      kept = if draft.absorbsBlanks then fragment.dropWhile isBlank else fragment := ⟨_, rfl⟩
  have written : kept.glyphs =
      (if draft.absorbsBlanks then front.dropWhile (isBlank ·.char) else front) ++ x :: back := by
    rw [shape]
    split
    · rw [Fragment.glyphs_dropWhile_isBlank, parts, List.dropWhile_append]
      split
      · next empty => simp [List.isEmpty_iff.mp empty, blank]
      · rfl
    · exact parts
  have nonempty : ¬kept.isEmpty = true := by
    intro empty
    rw [Fragment.glyphs, List.isEmpty_iff.mp empty, glyphsOf_nil] at written
    simp at written
  rw [Draft.append, ← shape, if_neg nonempty, List.append_assoc, ← written]
  exact ⟨spells.joined_push kept, joint_joined_push kept draft⟩

/-- The draft has these characters up to the visible one, and maybe others behind it. -/
def Reached (glyphs : List Glyph) (x : Glyph) (draft : Draft) : Prop :=
  ∃ rest, draft.Spells (glyphs ++ x :: rest)

namespace Reached

theorem trimmed (reached : draft.Reached glyphs x) (visible : x.isVisible = true) :
    draft.trimmed.Reached glyphs x := by
  obtain ⟨rest, spells⟩ := reached
  obtain ⟨kept, -, -, -, trimmed⟩ := spells.trimmed_of_visible visible
  exact ⟨kept, trimmed⟩

/-- Later items leave what stands before a visible character as it is. -/
theorem extend (reached : draft.Reached glyphs x) (visible : x.isVisible = true)
    (item : ProseItem) : (ProseItem.extend draft item).Reached glyphs x := by
  cases item with
  | text fragment =>
    obtain ⟨rest, spells⟩ := reached
    rw [ProseItem.extend, Draft.append]
    generalize (if draft.absorbsBlanks then fragment.dropWhile isBlank else fragment) = kept
    split
    · exact ⟨rest, spells⟩
    · exact ⟨rest ++ draft.due ++ kept.glyphs, by simpa using spells.joined_push kept⟩
  | lineEnd stop =>
    rw [ProseItem.extend, endLine]
    split
    · exact reached
    · obtain ⟨rest, spells⟩ := reached.trimmed visible
      exact ⟨rest, spells.text_eq, spells.offsets_eq⟩
  | division => exact reached

theorem foldl (reached : draft.Reached glyphs x) (visible : x.isVisible = true)
    (items : List ProseItem) : (items.foldl ProseItem.extend draft).Reached glyphs x := by
  induction items generalizing draft with
  | nil => exact reached
  | cons item items ih => exact ih (reached.extend visible item)

end Reached

/-- Text with a visible character ends the run behind an earlier one. -/
theorem Behind.reached_append (behind : draft.Behind glyphs x blanks) {fragment : Fragment}
    {lead back : List Glyph} {y : Glyph} (parts : fragment.glyphs = lead ++ y :: back)
    (visible : y.isVisible = true) (blank : allBlank (lead.map Glyph.char) = true) :
    ∃ between, (draft.append fragment).Reached (glyphs ++ x :: between) y ∧
      between.map Glyph.char =
        ProseItem.runAfter (draft.run blanks) (.text ⟨fragment.start, lead.map Glyph.char⟩) := by
  obtain ⟨spells, -⟩ := behind.spells.append parts visible
  refine ⟨blanks ++ draft.due ++ _, ⟨back, by simpa using spells⟩, ?_⟩
  rw [behind.absorbsBlanks_eq, ProseItem.runAfter]
  by_cases empty : (draft.run blanks).isEmpty = true
  · obtain ⟨rfl, none_due⟩ := run_isEmpty.mp empty
    simp [empty, none_due]
  · have dropped : lead.dropWhile (isBlank ·.char) = [] := by
      apply List.dropWhile_eq_nil_iff.mpr
      intro glyph member
      exact List.all_eq_true.mp blank glyph.char (List.mem_map_of_mem member)
    rw [if_neg empty, Bool.eq_false_iff.mpr empty, Bool.not_false, if_pos rfl, dropped,
      List.append_nil]
    rfl

end Draft

namespace ProseItem

variable {before middle after : List ProseItem} {first last : Fragment}
  {front tail lead back : List Glyph} {x y : Glyph}

/-- Between two visible characters of items, with no other between them, a passage has the run that
the items leave. -/
theorem exists_run_of_finish? (firstParts : first.glyphs = front ++ x :: tail)
    (lastParts : last.glyphs = lead ++ y :: back) (xVisible : x.isVisible = true)
    (yVisible : y.isVisible = true) (tailBlank : tail.filter Glyph.isVisible = [])
    (middleBlank : visibleGlyphs middle = []) (leadBlank : lead.filter Glyph.isVisible = [])
    {text : List Char} {provenance : Provenance}
    (made : ((before ++ .text first :: (middle ++ .text last :: after)).foldl extend
      .empty).finish? = some (text, provenance)) :
    ∃ glyphs between, Draft.Reached (glyphs ++ x :: between) y ⟨text, provenance, none⟩ ∧
      between.map Glyph.char = runAfter (middle.foldl runAfter (tail.map Glyph.char))
        (.text ⟨last.start, lead.map Glyph.char⟩) := by
  obtain ⟨glyphs, holds⟩ := Draft.holds_empty.foldl before
  obtain ⟨spells, joint⟩ := holds.spells.append firstParts xVisible
  generalize glyphs ++ _ ++ _ = earlier at spells
  have behind : Draft.Behind earlier x tail _ := ⟨spells, xVisible, tailBlank, by simp [joint]⟩
  obtain ⟨blanks, later, run⟩ := behind.foldl middleBlank
  rw [Draft.run_of_joint joint] at run
  obtain ⟨between, reached, between_eq⟩ :=
    later.reached_append lastParts yVisible (Glyph.allBlank_map_char.mpr leadBlank)
  have final := (reached.foldl yVisible after).trimmed yVisible
  refine ⟨earlier, between, ?_, ?_⟩
  · rw [List.foldl_append, List.foldl_cons, List.foldl_append, List.foldl_cons,
      Draft.finish?] at made
    split at made
    · cases made
    · obtain ⟨rfl, rfl⟩ := Prod.mk.inj (Option.some.inj made)
      obtain ⟨rest, spells⟩ := final
      exact ⟨rest, spells.text_eq, spells.offsets_eq⟩
  · rw [between_eq, run]

/-- A passage as a list of characters in order, cut around two of them that are known by their
places. -/
theorem IsPassageOf.exists_cut {stretch : List ProseItem} {text : List Char}
    {provenance : Provenance} (passage : IsPassageOf stretch text provenance)
    (ordered : (stretch.flatMap bytes).Pairwise (· < ·)) {left gap right : List Char}
    (parts : text = left ++ x.char :: (gap ++ y.char :: right))
    (xOrigin : provenance.origin? (width left) = some x.offset)
    (yOrigin : provenance.origin? (width (left ++ x.char :: gap)) = some y.offset) :
    ∃ earlier between later, between.map Glyph.char = gap ∧
      Draft.Holds stretch (earlier ++ x :: (between ++ y :: later)) ⟨text, provenance, none⟩ ∧
      (earlier ++ x :: (between ++ y :: later)).Pairwise
        fun glyph next => glyph.offset < next.offset := by
  obtain ⟨glyphs, holds⟩ : ∃ glyphs, Draft.Holds stretch glyphs ⟨text, provenance, none⟩ := by
    obtain ⟨front, last, -, holds⟩ := passage
    exact ⟨_, holds⟩
  have text_eq : text = glyphs.map Glyph.char := holds.text_eq
  have offsets_eq : provenance.offsets = glyphs.flatMap Glyph.bytes := holds.offsets_eq
  obtain ⟨earlier, fromX, rfl, rfl, xSpelled⟩ :=
    List.map_eq_append_iff.mp (text_eq.symm.trans parts)
  obtain ⟨x', behind, rfl, xChar, behindSpelled⟩ := List.map_eq_cons_iff.mp xSpelled
  obtain ⟨between, fromY, rfl, rfl, ySpelled⟩ := List.map_eq_append_iff.mp behindSpelled
  obtain ⟨y', later, rfl, yChar, -⟩ := List.map_eq_cons_iff.mp ySpelled
  obtain rfl : x' = x := by
    rw [Provenance.origin?_width offsets_eq] at xOrigin
    exact Glyph.ext (Option.some.inj xOrigin) xChar
  obtain rfl : y' = y := by
    rw [List.append_cons, ← List.append_assoc] at offsets_eq
    have found := Provenance.origin?_width offsets_eq
    simp only [List.map_append, List.map_cons, List.append_assoc, List.cons_append,
      List.nil_append] at found
    rw [found] at yOrigin
    exact Glyph.ext (Option.some.inj yOrigin) yChar
  refine ⟨earlier, between, later, rfl, holds, Glyph.pairwise_offset ?_⟩
  have sublist := holds.sublist
  rw [Draft.due_of_joint rfl, List.append_nil] at sublist
  exact ordered.sublist sublist

/-- Where a passage has nothing but blanks between two visible characters, so have the items, and the
blanks are the run that the items leave. -/
theorem exists_run_of_passage {stretch : List ProseItem}
    (shape : stretch = before ++ .text first :: (middle ++ .text last :: after))
    (ordered : (stretch.flatMap bytes).Pairwise (· < ·)) {text : List Char}
    {provenance : Provenance}
    (made : (stretch.foldl extend .empty).finish? = some (text, provenance))
    {left gap right : List Char} (parts : text = left ++ x.char :: (gap ++ y.char :: right))
    (blank : allBlank gap = true) (xVisible : x.isVisible = true) (yVisible : y.isVisible = true)
    (xOrigin : provenance.origin? (width left) = some x.offset)
    (yOrigin : provenance.origin? (width (left ++ x.char :: gap)) = some y.offset)
    (xIn : x ∈ first.glyphs) (yIn : y ∈ last.glyphs) :
    ∃ front tail lead back, first.glyphs = front ++ x :: tail ∧ last.glyphs = lead ++ y :: back ∧
      tail.filter Glyph.isVisible = [] ∧ visibleGlyphs middle = [] ∧
      lead.filter Glyph.isVisible = [] ∧
      gap = runAfter (middle.foldl runAfter (tail.map Glyph.char))
        (.text ⟨last.start, lead.map Glyph.char⟩) := by
  obtain ⟨front, tail, firstParts⟩ := List.append_of_mem xIn
  obtain ⟨lead, back, lastParts⟩ := List.append_of_mem yIn
  obtain ⟨earlier, between, later, rfl, holds, inOrder⟩ :=
    (isPassageOf_of_finish? made).exists_cut ordered parts xOrigin yOrigin
  have yInOrder := (List.pairwise_cons.mp (List.pairwise_append.mp inOrder).2.1).2
  -- The visible characters of the items are those of the passage.
  obtain ⟨tailBlank, middleBlank, leadBlank⟩ : tail.filter Glyph.isVisible = [] ∧
      visibleGlyphs middle = [] ∧ lead.filter Glyph.isVisible = [] := by
    have visible := holds.visible_eq
    have order := inOrder.sublist (List.filter_sublist (p := Glyph.isVisible))
    simp only [shape, visibleGlyphs, List.flatMap_append, List.flatMap_cons, glyphs, firstParts,
      lastParts, List.filter_append, List.filter_cons_of_pos xVisible,
      List.filter_cons_of_pos yVisible, Glyph.allBlank_map_char.mp blank, List.nil_append,
      List.append_assoc, List.cons_append] at visible order
    rw [← List.append_assoc, ← List.append_assoc (List.filter _ _),
      ← List.append_assoc (_ ++ _)] at visible
    have nothing := eq_nil_of_pairwise order (fun glyph => Nat.lt_irrefl glyph.offset) visible
    rwa [List.append_eq_nil_iff, List.append_eq_nil_iff, and_assoc] at nothing
  obtain ⟨others, run, ⟨more, spells⟩, run_eq⟩ := exists_run_of_finish? firstParts lastParts xVisible
    yVisible tailBlank middleBlank leadBlank (shape ▸ made)
  have same := holds.eq_of_text spells.text_eq spells.offsets_eq
  rw [List.append_assoc, List.cons_append] at same
  obtain ⟨-, same⟩ := append_cons_inj_of_pairwise inOrder (Nat.lt_irrefl _) same
  obtain ⟨rfl, -⟩ := append_cons_inj_of_pairwise yInOrder (Nat.lt_irrefl _) same
  exact ⟨front, tail, lead, back, firstParts, lastParts, tailBlank, middleBlank, leadBlank, run_eq⟩

end ProseItem

end CommentProse
