import CommentProse.Proofs.Checked.RunTable
import CommentProse.Proofs.Prose.Passages
import CommentProse.Proofs.Text.Trimming

/-! # Checked drafting

While a passage is put together, its provenance is kept as a table. Drafting skips blanks by the
difference of two widths, pushes to the table, cuts the draft at the width of what is kept of it,
and looks up the place of a joint. Each of these operations is checked, with sums that must not be
too large. They are not, as long as the items fit and their bytes are in order: then a draft never
has more bytes than there are numbers (`Draft.Holds.fits`).
-/

namespace CommentProse

/-! ### Room for drafts -/

/-- All that is added to the offsets of an item is at most `limit`. -/
def ProseItem.Fits (limit : Nat) : ProseItem → Prop
  | .text fragment => fragment.stop < limit
  | .lineEnd stop => stop + 1 < limit
  | .division => True

/-- The bytes of items stand in order, and there is room behind each item. -/
structure ProseItem.Fit (limit : Nat) (items : List ProseItem) : Prop where
  ordered : (items.flatMap bytes).Pairwise (· < ·)
  fits : ∀ item ∈ items, item.Fits limit

/-- The provenance of a draft fits, and so does the place behind the space that is due. -/
structure Draft.Fits (limit : Nat) (draft : Draft) : Prop where
  provenance : draft.provenance.Fits limit
  joint_lt : ∀ source ∈ draft.joint, source + 1 < limit

variable {limit : Nat}

theorem ProseItem.Fits.byte_lt {item : ProseItem} (fits : item.Fits limit) :
    ∀ offset ∈ item.bytes, offset + 1 < limit := by
  intro offset member
  cases item with
  | text fragment =>
    have small : fragment.stop < limit := fits
    have := (Fragment.mem_bytes.mp member).2
    change offset < fragment.stop at this
    omega
  | lineEnd stop =>
    obtain rfl := List.mem_singleton.mp member
    exact fits
  | division => cases member

namespace ProseItem.Fit

variable {items earlier later : List ProseItem}

theorem byte_lt (fit : Fit limit items) : ∀ offset ∈ items.flatMap bytes, offset + 1 < limit := by
  intro offset member
  obtain ⟨item, among, here⟩ := List.mem_flatMap.mp member
  exact (fit.fits item among).byte_lt offset here

/-- Items that stand among others in one piece fit with them. -/
theorem part (fit : Fit limit items) (inside : later <:+: items) : Fit limit later where
  ordered := by
    obtain ⟨before, after, rfl⟩ := inside
    have ordered := fit.ordered
    rw [List.flatMap_append, List.flatMap_append] at ordered
    exact (List.pairwise_append.mp (List.pairwise_append.mp ordered).1).2.1
  fits := fun item member => fit.fits item (inside.subset member)

end ProseItem.Fit

namespace Draft

variable {draft : Draft} {items : List ProseItem} {glyphs : List Glyph}

theorem filled_push (filled : draft.provenance.Filled) (fragment : Fragment) :
    (draft.push fragment).provenance.Filled := filled.push _ _

theorem filled_joined (filled : draft.provenance.Filled) : draft.joined.provenance.Filled := by
  rw [joined]
  split
  · exact filled_push filled _
  · exact filled

theorem filled_extend (filled : draft.provenance.Filled) (item : ProseItem) :
    (ProseItem.extend draft item).provenance.Filled := by
  cases item with
  | text fragment =>
    rw [ProseItem.extend, append]
    generalize (if draft.absorbsBlanks then fragment.dropWhile isBlank else fragment) = visible
    split
    · exact filled
    · exact filled_push (filled_joined filled) _
  | lineEnd stop =>
    rw [ProseItem.extend, endLine]
    split
    · exact filled
    · exact filled.take _
  | division => exact filled

theorem filled_foldl (filled : draft.provenance.Filled) (later : List ProseItem) :
    (later.foldl ProseItem.extend draft).provenance.Filled := by
  induction later generalizing draft with
  | nil => exact filled
  | cons item later ih => exact ih (filled_extend filled item)

/-- A draft of items that fit has bytes in order, so there is room for it. -/
theorem Holds.fits (holds : draft.Holds items glyphs) (filled : draft.provenance.Filled)
    (fit : ProseItem.Fit limit items) : draft.Fits limit := by
  have bounded : ∀ offset ∈ (glyphs ++ draft.due).flatMap Glyph.bytes, offset + 1 < limit :=
    fun offset member => fit.byte_lt offset (holds.sublist.subset member)
  have ordered := fit.ordered.sublist holds.sublist
  rw [List.flatMap_append] at bounded ordered
  rw [← holds.offsets_eq] at bounded ordered
  constructor
  · exact .of_pairwise filled (List.pairwise_append.mp ordered).1 fun offset member =>
      bounded offset (List.mem_append_left _ member)
  · intro source due
    apply bounded
    rw [Option.mem_def] at due
    simp [Draft.due, due]

/-- So there is room for every passage that items that fit make up. -/
theorem fits_of_mem_passages (fit : ProseItem.Fit limit items) {passage : List Char × Provenance}
    (member : passage ∈ ProseItem.passages items) : passage.2.Fits limit := by
  obtain ⟨stretch, among, finished⟩ := List.mem_filterMap.mp member
  obtain ⟨before, after, parts, -⟩ := ProseItem.exists_append_of_mem_stretches among
  obtain ⟨glyphs, holds⟩ := holds_empty.foldl stretch
  have fits := holds.fits (filled_foldl Provenance.filled_empty stretch)
    (fit.part ⟨before, after, parts.symm⟩)
  rw [Draft.finish?] at finished
  split at finished
  · cases finished
  · cases finished
    exact fits.provenance.take _

end Draft

namespace Checked

/-! ### Drafts with tables -/

/-- A draft that keeps its provenance as a table. -/
structure TableDraft where
  text : List Char
  table : RunTable
  joint : Option Nat
deriving DecidableEq, Repr

namespace TableDraft

def empty : TableDraft := ⟨[], .empty, none⟩

/-- A draft as it is kept. -/
def ofDraft (draft : Draft) : TableDraft :=
  ⟨draft.text, .ofProvenance draft.provenance, draft.joint⟩

/-- The draft that is kept. -/
def draft (kept : TableDraft) : Draft := ⟨kept.text, kept.table.provenance, kept.joint⟩

theorem ofDraft_empty : ofDraft .empty = empty := rfl

@[simp] theorem text_ofDraft (draft : Draft) : (ofDraft draft).text = draft.text := rfl

@[simp] theorem table_ofDraft (draft : Draft) :
    (ofDraft draft).table = .ofProvenance draft.provenance := rfl

@[simp] theorem joint_ofDraft (draft : Draft) : (ofDraft draft).joint = draft.joint := rfl

@[simp] theorem draft_ofDraft (draft : Draft) : (ofDraft draft).draft = draft := by
  rw [TableDraft.draft, ofDraft, RunTable.provenance_ofProvenance]

/-- Puts text behind the draft. -/
def push? (limit : Nat) (fragment : Fragment) (kept : TableDraft) : Option TableDraft := do
  let table ← kept.table.push? limit fragment.start (width fragment.text)
  return { kept with text := kept.text ++ fragment.text, table }

/-- Writes the space that joins two lines, if one is due. -/
def joined? (limit : Nat) (kept : TableDraft) : Option TableDraft :=
  match kept.joint with
  | some source => do
    let spaced ← kept.push? limit ⟨source, [' ']⟩
    return { spaced with joint := none }
  | none => some kept

/-- What of a fragment goes to a draft. -/
def visible? (limit : Nat) (fragment : Fragment) (kept : TableDraft) : Option Fragment :=
  if kept.draft.absorbsBlanks then do
    let rest := fragment.text.dropWhile isBlank
    let skipped ← minus? (width fragment.text) (width rest)
    let start ← plus? limit fragment.start skipped
    return ⟨start, rest⟩
  else some fragment

/-- Goes on with a fragment of the source. -/
def append? (limit : Nat) (fragment : Fragment) (kept : TableDraft) : Option TableDraft := do
  let visible ← kept.visible? limit fragment
  if visible.isEmpty then return kept
  else
    let joined ← kept.joined? limit
    joined.push? limit visible

/-- Drops the blanks at the end. -/
def trimmed? (kept : TableDraft) : Option TableDraft := do
  let size := width (trimEnd kept.text)
  let text ← upTo? kept.text size
  let table ← kept.table.take? size
  return { kept with text, table }

/-- The source offset of the space that is to join the next line. -/
def joint? (limit stop : Nat) (kept : TableDraft) : Option Nat :=
  let size := width (trimEnd kept.text)
  if size < width kept.text then (kept.table.origin? limit size).map (·.getD stop) else some stop

/-- Ends a line of the source at `stop`. -/
def endLine? (limit stop : Nat) (kept : TableDraft) : Option TableDraft :=
  if kept.text.isEmpty || kept.joint.isSome then some kept
  else do
    let joint ← kept.joint? limit stop
    let final ← kept.trimmed?
    return { final with joint := some joint }

/-- The text and provenance of a draft that has any text. -/
def finish? (kept : TableDraft) : Option (Option (List Char × Provenance)) := do
  let final ← kept.trimmed?
  return if final.text.isEmpty then none else some (final.text, final.table.provenance)

/-- The draft after one more item. -/
def extend? (limit : Nat) (kept : TableDraft) : ProseItem → Option TableDraft
  | .text fragment => kept.append? limit fragment
  | .lineEnd stop => kept.endLine? limit stop
  | .division => some kept

variable {draft : Draft}

theorem push?_eq (fits : draft.provenance.Fits limit) {fragment : Fragment}
    (room : draft.provenance.size + width fragment.text ≤ limit) :
    (ofDraft draft).push? limit fragment = some (ofDraft (draft.push fragment)) := by
  rw [push?, ofDraft, RunTable.push?_eq fits room]
  rfl

/-- A due space is written if there is room for it, and room stays for the joint draft. -/
theorem joined?_eq (fits : draft.Fits limit) (room : draft.joined.provenance.size ≤ limit) :
    (ofDraft draft).joined? limit = some (ofDraft draft.joined) ∧
      draft.joined.provenance.Fits limit := by
  obtain ⟨text, provenance, joint⟩ := draft
  cases joint with
  | none => exact ⟨rfl, fits.provenance⟩
  | some source =>
    have small := fits.joint_lt source rfl
    have size : (Draft.mk text provenance (some source)).joined.provenance.size =
        provenance.size + 1 := provenance.size_push source 1
    rw [size] at room
    have spaced : (ofDraft ⟨text, provenance, some source⟩).push? limit ⟨source, [' ']⟩ =
        some (ofDraft (Draft.push ⟨source, [' ']⟩ ⟨text, provenance, some source⟩)) :=
      push?_eq fits.provenance room
    rw [joined?, joint_ofDraft]
    dsimp only
    rw [spaced]
    exact ⟨rfl, fits.provenance.push small room⟩

theorem visible?_eq {fragment : Fragment} (bounded : fragment.stop < limit) :
    (ofDraft draft).visible? limit fragment =
      some (if draft.absorbsBlanks then fragment.dropWhile isBlank else fragment) := by
  have parts := congrArg width (List.takeWhile_append_dropWhile (p := isBlank) (l := fragment.text))
  rw [width_append] at parts
  rw [Fragment.stop] at bounded
  rw [visible?, draft_ofDraft]
  split
  · have start : plus? limit fragment.start (width (fragment.text.takeWhile isBlank)) =
        some (fragment.dropWhile isBlank).start := plus?_of_le (by omega)
    simp only [minus?_dropWhile, start, Option.bind_eq_bind, Option.bind_some, Option.pure_def]
    rfl
  · rfl

theorem append?_eq (fits : draft.Fits limit) {fragment : Fragment} (bounded : fragment.stop < limit)
    (room : (draft.append fragment).provenance.size ≤ limit) :
    (ofDraft draft).append? limit fragment = some (ofDraft (draft.append fragment)) := by
  rw [append?, visible?_eq bounded, Option.bind_eq_bind, Option.bind_some]
  rw [Draft.append] at room ⊢
  generalize (if draft.absorbsBlanks then fragment.dropWhile isBlank else fragment) = visible
    at room ⊢
  split
  · rfl
  · next nonempty =>
    rw [if_neg nonempty, Draft.push, Provenance.size_push] at room
    obtain ⟨joined, spaced⟩ := joined?_eq fits (Nat.le_of_add_right_le room)
    rw [joined, Option.bind_eq_bind, Option.bind_some, push?_eq spaced room]

theorem trimmed?_eq (filled : draft.provenance.Filled) :
    (ofDraft draft).trimmed? = some (ofDraft draft.trimmed) := by
  obtain ⟨blanks, whole⟩ := trimEnd_isPrefix draft.text
  have kept : upTo? draft.text (width (trimEnd draft.text)) = some (trimEnd draft.text) := by
    have cut := upTo?_append (trimEnd draft.text) blanks
    rwa [whole] at cut
  rw [trimmed?, ofDraft, kept, RunTable.take?_eq filled]
  rfl

theorem endLine?_eq (fits : draft.provenance.Fits limit) (stop : Nat) :
    (ofDraft draft).endLine? limit stop = some (ofDraft (draft.endLine stop)) := by
  have joint : (ofDraft draft).joint? limit stop =
      some (if width (trimEnd draft.text) < width draft.text then
        (draft.provenance.origin? (width (trimEnd draft.text))).getD stop else stop) := by
    rw [joint?, text_ofDraft, table_ofDraft]
    split
    · rw [RunTable.origin?_eq fits.stop_lt]
      rfl
    · rfl
  rw [endLine?, Draft.endLine, trimmed?_eq fits.filled, joint, text_ofDraft, joint_ofDraft]
  split <;> rfl

theorem finish?_eq (filled : draft.provenance.Filled) :
    (ofDraft draft).finish? = some draft.finish? := by
  simp only [finish?, trimmed?_eq filled, text_ofDraft, table_ofDraft,
    RunTable.provenance_ofProvenance, Option.bind_eq_bind, Option.bind_some, Option.pure_def]
  rfl

/-- One more item is worked into the draft, if it fits and there is room for the longer draft. -/
theorem extend?_eq (fits : draft.Fits limit) {item : ProseItem} (bounded : item.Fits limit)
    (room : (ProseItem.extend draft item).provenance.size ≤ limit) :
    (ofDraft draft).extend? limit item = some (ofDraft (ProseItem.extend draft item)) := by
  cases item with
  | text fragment => exact append?_eq fits bounded room
  | lineEnd stop => exact endLine?_eq fits.provenance stop
  | division => rfl

/-- Items that fit are worked into the draft one by one. -/
theorem foldlM_extend?_eq {earlier later : List ProseItem} {glyphs : List Glyph}
    (holds : draft.Holds earlier glyphs) (filled : draft.provenance.Filled)
    (fit : ProseItem.Fit limit (earlier ++ later)) :
    later.foldlM (extend? limit) (ofDraft draft) =
      some (ofDraft (later.foldl ProseItem.extend draft)) := by
  induction later generalizing earlier glyphs draft with
  | nil => rfl
  | cons item later ih =>
    rw [List.append_cons] at fit
    have front := fit.part (List.prefix_append _ _).isInfix
    obtain ⟨longer, extended⟩ := holds.extend item
    have still := Draft.filled_extend filled item
    have fits := holds.fits filled (front.part (List.prefix_append _ _).isInfix)
    have room := (extended.fits still front).provenance.size_le
    rw [List.foldlM_cons, extend?_eq fits (front.fits item (by simp)) room, Option.bind_eq_bind,
      Option.bind_some, List.foldl_cons]
    exact ih extended still fit

end TableDraft

/-- The texts of the passages that items make up. -/
def passages? (limit : Nat) (items : List ProseItem) : Option (List (List Char × Provenance)) := do
  let drafts ← (ProseItem.stretches items).mapM fun stretch => do
    let draft ← stretch.foldlM (TableDraft.extend? limit) .empty
    draft.finish?
  return drafts.filterMap id

theorem passages?_eq {items : List ProseItem} (fit : ProseItem.Fit limit items) :
    passages? limit items = some (ProseItem.passages items) := by
  have drafts : (ProseItem.stretches items).mapM (fun stretch => do
      let draft ← stretch.foldlM (TableDraft.extend? limit) .empty
      draft.finish?) = some ((ProseItem.stretches items).map fun stretch =>
        (stretch.foldl ProseItem.extend .empty).finish?) := by
    refine mapM_eq_some_map fun stretch member => ?_
    obtain ⟨before, after, parts, -⟩ := ProseItem.exists_append_of_mem_stretches member
    have inside : stretch <:+: items := ⟨before, after, parts.symm⟩
    have drafted := TableDraft.foldlM_extend?_eq Draft.holds_empty Provenance.filled_empty
      (fit.part inside)
    rw [← TableDraft.ofDraft_empty, drafted, Option.bind_eq_bind, Option.bind_some,
      TableDraft.finish?_eq (Draft.filled_foldl Provenance.filled_empty stretch)]
  rw [passages?, drafts, ProseItem.passages, Option.bind_eq_bind, Option.bind_some,
    List.filterMap_map]
  rfl

end Checked

end CommentProse
