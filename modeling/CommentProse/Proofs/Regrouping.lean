import CommentProse.Proofs.Contents
import CommentProse.Proofs.Markup.Kinds
import CommentProse.Proofs.Parting

/-! # What settings that divide prose can change

Settings say what is markup, and which markup divides prose. If two settings agree on the first, a
comment has the same prose under both, character by character, and the same block tags and
unfinished markup: only where passages end can differ. If the second settings divide wherever the
first do, each of their passages lies in one passage of the first
(`Analysis.dividing_regroups_prose`).
-/

namespace CommentProse

variable {first second : Settings}

/-- Each item of a list has a counterpart in a list that stands in a relation to it. -/
theorem exists_of_forall₂ {α β : Type} {related : α → β → Prop} {items : List α} {others : List β}
    (forall₂ : List.Forall₂ related items others) {item : α} (member : item ∈ items) :
    ∃ other ∈ others, related item other := by
  induction forall₂ with
  | nil => cases member
  | cons here _ ih =>
    rcases List.mem_cons.mp member with rfl | later
    · exact ⟨_, List.mem_cons_self, here⟩
    · obtain ⟨found, among, same⟩ := ih later
      exact ⟨found, List.mem_cons_of_mem _ among, same⟩

namespace SpannedLine

/-- A byte of the line has the role. -/
def RoleAt (line : SpannedLine) (offset : Nat) (role : Role) : Prop :=
  ∃ span ∈ line.spans, offset ∈ span.range ∧ span.role = role

instance (line : SpannedLine) (offset : Nat) (role : Role) : Decidable (line.RoleAt offset role) :=
  inferInstanceAs (Decidable (∃ span ∈ line.spans, _ ∧ _))

/-- One line, with spans that differ at most in what divides. -/
structure Alike (first second : Settings) (line other : SpannedLine) : Prop where
  same : other.line = line.line
  finer : Span.Refine first second line.spans other.spans
  coarser : Span.Refine second first other.spans line.spans

variable {line other : SpannedLine} {offset : Nat}

/-- Lines are read alike under settings that agree on what is markup. -/
theorem forall₂_alike_ofLines (same : first.SameMarkup second) (lines : List CommentLine) :
    List.Forall₂ (Alike first second) (ofLines first .none lines) (ofLines second .none lines) := by
  obtain ⟨finer, unfinished⟩ := (OpenMarkup.Alike.refl .none).readLines same lines
  obtain ⟨coarser, -⟩ := (OpenMarkup.Alike.refl .none).readLines same.symm lines
  rw [ofLines, ofLines, unfinished]
  generalize (OpenMarkup.none.readLines first lines).2 = given
  generalize (OpenMarkup.none.readLines first lines).1 = spans at finer coarser ⊢
  generalize (OpenMarkup.none.readLines second lines).1 = others at finer coarser ⊢
  clear unfinished
  induction finer generalizing lines with
  | nil => simp
  | cons here rest ih =>
    obtain ⟨back, others⟩ := List.forall₂_cons.mp coarser
    cases lines with
    | nil => exact .nil
    | cons line lines => exact .cons ⟨rfl, here.relabel given, back.relabel given⟩ (ih lines others)

theorem Alike.roleAt_iff (alike : line.Alike first second other) (role : Role) :
    other.RoleAt offset role ↔ line.RoleAt offset role := by
  constructor
  · rintro ⟨span, member, inside, rfl⟩
    obtain ⟨_, ⟨found, among, here, same, -⟩, -⟩ :=
      alike.coarser offset span.role span.divides ⟨span, member, inside, rfl, rfl⟩
    exact ⟨found, among, here, same⟩
  · rintro ⟨span, member, inside, rfl⟩
    obtain ⟨_, ⟨found, among, here, same, -⟩, -⟩ :=
      alike.finer offset span.role span.divides ⟨span, member, inside, rfl, rfl⟩
    exact ⟨found, among, here, same⟩

/-- The visible prose of a line are the visible characters whose first byte is prose. -/
theorem visibleProse_eq_filter (spanned : line.line.content.IsSpannedBy line.spans) (offset : Nat) :
    line.visibleProse offset =
      ((line.line.content.shift offset).glyphs.filter Glyph.isVisible).filter
        fun glyph => line.RoleAt (glyph.offset - offset) .prose := by
  have whole : (line.line.content.shift offset).glyphs =
      line.spans.flatMap fun span => ((line.textOf span).shift offset).glyphs := by
    have glyphs := spanned.adjacent_slices.flatMap_glyphs_shift offset
    rw [List.flatMap_map, List.flatMap_map, spanned.flatMap_slice] at glyphs
    exact glyphs.symm
  have each : ∀ span ∈ line.spans,
      ((((line.textOf span).shift offset).glyphs.filter Glyph.isVisible).filter
        fun glyph => line.RoleAt (glyph.offset - offset) .prose) =
      if span.role = .prose then ((line.textOf span).shift offset).glyphs.filter Glyph.isVisible
      else [] := by
    intro span member
    obtain ⟨-, -, -, -, range⟩ := spanned.slice_part member
    have inside : ∀ glyph ∈ ((line.textOf span).shift offset).glyphs,
        glyph.offset - offset ∈ span.range := by
      intro glyph among
      have here := Fragment.mem_bytes.mp (Fragment.offset_mem_bytes among)
      rw [← range]
      simp only [ByteRange.mem_iff, Fragment.range, Fragment.shift, Fragment.stop] at here ⊢
      dsimp only [textOf] at here
      omega
    split
    · next prose =>
      apply List.filter_eq_self.mpr
      intro glyph among
      exact decide_eq_true ⟨span, member, inside glyph (List.mem_filter.mp among).1, prose⟩
    · next other =>
      apply List.filter_eq_nil_iff.mpr
      intro glyph among prose
      obtain ⟨found, present, here, role⟩ := of_decide_eq_true prose
      obtain rfl := spanned.tiles.eq_of_mem present member here
        (inside glyph (List.mem_filter.mp among).1)
      exact other role
  rw [visibleProse, whole, List.filter_flatMap, List.filter_flatMap, List.flatMap_congr each]
  induction line.spans with
  | nil => rfl
  | cons span spans ih => by_cases prose : span.role = .prose <;> simp [prose, ih]

theorem Alike.visibleProse_eq (alike : line.Alike first second other)
    (spanned : line.line.content.IsSpannedBy line.spans)
    (otherSpanned : other.line.content.IsSpannedBy other.spans) (offset : Nat) :
    other.visibleProse offset = line.visibleProse offset := by
  rw [visibleProse_eq_filter spanned, visibleProse_eq_filter otherSpanned, alike.same]
  simp only [alike.roleAt_iff]

end SpannedLine

namespace Analysis

variable {block : Fragment} {analysis other : Analysis} {x y : Glyph}

/-- Two readings of one comment, alike line by line. -/
structure Alike (first second : Settings) (block : Fragment) (analysis other : Analysis) :
    Prop where
  reading : analysis.IsReadingOf first block
  otherReading : other.IsReadingOf second block
  lines : List.Forall₂ (SpannedLine.Alike first second) analysis.lines other.lines

/-- A line with its visible prose. -/
def shown (offset : Nat) (line : SpannedLine) : CommentLine × List Glyph :=
  (line.line, line.visibleProse offset)

theorem outline_map_shown (analysis : Analysis) (offset : Nat) :
    analysis.outline.map id (shown offset) =
      Outline.ofLines (fun line : CommentLine × List Glyph => line.1.tagHead?)
        (analysis.lines.map (shown offset)) :=
  (Outline.ofLines_map (fun line => by simp [shown, SpannedLine.tagHead?]) analysis.lines).symm

theorem sameSection_iff (analysis : Analysis) (x y : Glyph) :
    analysis.SameSection x y ↔
      ∃ part ∈ (analysis.outline.map id (shown analysis.offset)).sections,
        x ∈ part.2.flatMap Prod.snd ∧ y ∈ part.2.flatMap Prod.snd := by
  have names (head : TagHead) : (id head).tagName = head.tagName := rfl
  rw [Outline.sections_map names]
  simp only [SameSection, List.mem_map, exists_exists_and_eq_and, List.flatMap_map]
  rfl

namespace Alike

theorem offset_eq (alike : Alike first second block analysis other) :
    other.offset = analysis.offset := alike.otherReading.offset.trans alike.reading.offset.symm

/-- Both readings show the same prose in each line. -/
theorem map_shown_eq (alike : Alike first second block analysis other) (offset : Nat) :
    other.lines.map (shown offset) = analysis.lines.map (shown offset) := by
  have shows {lines others : List SpannedLine}
      (related : List.Forall₂ (SpannedLine.Alike first second) lines others)
      (spanned : ∀ line ∈ lines, line.line.content.IsSpannedBy line.spans)
      (otherSpanned : ∀ line ∈ others, line.line.content.IsSpannedBy line.spans) :
      others.map (shown offset) = lines.map (shown offset) := by
    induction related with
    | nil => rfl
    | cons here _ ih =>
      rw [List.forall_mem_cons] at spanned otherSpanned
      rw [List.map_cons, List.map_cons, ih spanned.2 otherSpanned.2, shown, shown, here.same,
        here.visibleProse_eq spanned.1 otherSpanned.1]
  exact shows alike.lines alike.reading.spanned alike.otherReading.spanned

theorem sameSection_iff (alike : Alike first second block analysis other) :
    other.SameSection x y ↔ analysis.SameSection x y := by
  rw [Analysis.sameSection_iff, Analysis.sameSection_iff, outline_map_shown, outline_map_shown,
    alike.offset_eq, alike.map_shown_eq]

/-- Both readings have the same visible prose, in the same order. -/
theorem visibleOrigins_eq (alike : Alike first second block analysis other) :
    other.passages.flatMap Passage.visibleOrigins =
      analysis.passages.flatMap Passage.visibleOrigins := by
  have shown := congrArg (List.flatMap Prod.snd) (alike.map_shown_eq analysis.offset)
  rw [List.flatMap_map, List.flatMap_map] at shown
  rw [flatMap_visibleOrigins alike.otherReading, flatMap_visibleOrigins alike.reading,
    alike.offset_eq]
  exact congrArg _ shown

theorem map_line_eq (alike : Alike first second block analysis other) :
    other.lines.map SpannedLine.line = analysis.lines.map SpannedLine.line := by
  have shown := congrArg (List.map Prod.fst) (alike.map_shown_eq 0)
  rwa [List.map_map, List.map_map] at shown

end Alike

/-! ### Tags -/

/-- The outline of the lines as they are written. -/
theorem outline_map_line (analysis : Analysis) :
    analysis.outline.map id SpannedLine.line =
      Outline.ofLines CommentLine.tagHead? (analysis.lines.map SpannedLine.line) :=
  (Outline.ofLines_map (fun line => by simp [SpannedLine.tagHead?]) analysis.lines).symm

/-- What the block tags say is known from the lines as they are written. -/
theorem tagReports_eq_map (analysis : Analysis) :
    analysis.tagReports = (analysis.outline.map id SpannedLine.line).tags.map
      (TagSection.report CommentLine.content) := by
  rw [tagReports, Outline.map, List.map_map]
  apply List.map_congr_left
  intro tag _
  simp only [Function.comp_apply, TagSection.report, TagSection.bodyText, TagSection.body,
    TagSection.map, List.map_map]
  rfl

/-! ### Passages -/

/-- A character of a section is among the bytes of the prose. -/
theorem offset_mem_bytes_of_mem_section (reading : analysis.IsReadingOf first block)
    {part : Origin × List SpannedLine} (present : part ∈ analysis.outline.sections)
    (member : x ∈ part.2.flatMap (·.visibleProse analysis.offset)) :
    x.offset ∈ (itemsOf first analysis.offset analysis.lines).flatMap ProseItem.bytes := by
  rw [← visibleGlyphs_section reading present] at member
  obtain ⟨item, among, inside, -⟩ := ProseItem.mem_visibleGlyphs.mp member
  obtain ⟨front, back, lines⟩ := exists_append_of_mem_sectionsOf present
  rw [lines, itemsOf_append, itemsOf_append]
  exact List.mem_flatMap.mpr ⟨item, List.mem_append_left _ (List.mem_append_right _ among),
    ProseItem.offset_mem_bytes inside⟩

/-- The offset of a visible character of a passage is one of the offsets of the passage. -/
theorem offset_mem_offsets (reading : analysis.IsReadingOf first block) {passage : Passage}
    (member : passage ∈ analysis.passages)
    (here : (some x.offset, x.char) ∈ passage.visibleOrigins) :
    x.offset ∈ passage.provenance.offsets := by
  obtain ⟨_, _, _, _, front, last, -, holds⟩ := reading.exists_stretch_of_mem_passages member
  have text_eq : passage.text = (front ++ [last]).map Glyph.char := holds.text_eq
  have offsets_eq : passage.provenance.offsets = (front ++ [last]).flatMap Glyph.bytes :=
    holds.offsets_eq
  rw [Passage.visibleOrigins, text_eq, Provenance.visibleOrigins_eq offsets_eq] at here
  obtain ⟨glyph, among, same⟩ := List.mem_map.mp here
  rw [offsets_eq]
  refine List.mem_flatMap.mpr ⟨glyph, (List.mem_filter.mp among).1, ?_⟩
  rw [← Option.some.inj (Prod.mk.inj same).1]
  exact glyph.offset_mem_bytes

/-- A character is in one passage only. -/
theorem eq_of_mem_visibleOrigins (reading : analysis.IsReadingOf first block)
    {passage found : Passage} (member : passage ∈ analysis.passages)
    (among : found ∈ analysis.passages) (here : (some x.offset, x.char) ∈ passage.visibleOrigins)
    (there : (some x.offset, x.char) ∈ found.visibleOrigins) : passage = found := by
  have increasing := (reading.pairwise_bytes block.start).sublist reading.sublist_offsets
  have inPassage := offset_mem_offsets reading member here
  have inFound := offset_mem_offsets reading among there
  rcases eq_or_ordered (List.pairwise_flatMap.mp increasing).2 member among with
    same | before | behind
  · exact same
  · exact absurd (before _ inPassage _ inFound) (Nat.lt_irrefl _)
  · exact absurd (behind _ inFound _ inPassage) (Nat.lt_irrefl _)

/-- Every passage has a visible character. -/
theorem exists_mem_visibleOrigins (reading : analysis.IsReadingOf first block) {passage : Passage}
    (member : passage ∈ analysis.passages) :
    ∃ x : Glyph, (some x.offset, x.char) ∈ passage.visibleOrigins := by
  obtain ⟨_, _, _, _, front, last, visible, holds⟩ := reading.exists_stretch_of_mem_passages member
  have text_eq : passage.text = (front ++ [last]).map Glyph.char := holds.text_eq
  refine ⟨last, ?_⟩
  rw [Passage.visibleOrigins, text_eq, Provenance.visibleOrigins_eq holds.offsets_eq]
  exact List.mem_map_of_mem (f := fun glyph => (some glyph.offset, glyph.char))
    (List.mem_filter.mpr ⟨List.mem_append_right _ (List.mem_singleton_self _), visible⟩)

namespace Alike

/-- What parts two characters under the first settings does so under the second, if these divide
wherever the first do. The span that divides may be larger there, but it has no prose in it. -/
theorem parted_of_parted (alike : Alike first second block analysis other)
    (less : first.DividesLess second) (together : other.SameSection x y)
    (parted : analysis.Parted first x y) : other.Parted second x y := by
  obtain ⟨part, present, xIn, yIn⟩ := together
  have xByte := offset_mem_bytes_of_mem_section alike.otherReading present xIn
  have yByte := offset_mem_bytes_of_mem_section alike.otherReading present yIn
  obtain ⟨line, member, parts⟩ := parted
  obtain ⟨found, among, same⟩ := exists_of_forall₂ alike.lines member
  refine ⟨found, among, ?_⟩
  rcases parts with ⟨span, inside, divides, before, behind⟩ | ⟨divide, blank, between⟩
  · left
    have spanned := alike.reading.spanned line member
    have forward := (spanned.tiles.pairwise.2 span inside).2.1
    obtain ⟨flag, ⟨wider, within, covers, role, rfl⟩, keeps⟩ :=
      same.finer span.range.start span.role span.divides
        ⟨span, inside, ⟨Nat.le_refl _, forward⟩, rfl, rfl⟩
    have notProse : wider.role ≠ .prose := by
      rw [role, spanned.role_of_divides inside divides]
      decide
    have xOutside :=
      not_mem_span_of_mem_bytes alike.otherReading xByte among within notProse
    have yOutside :=
      not_mem_span_of_mem_bytes alike.otherReading yByte among within notProse
    simp only [ByteRange.mem_iff, ByteRange.shift, alike.offset_eq] at covers xOutside yOutside
    refine ⟨wider, within, keeps less divides, ?_, ?_⟩
    · rw [alike.offset_eq]
      omega
    · rw [alike.offset_eq]
      omega
  · right
    rw [same.same, alike.offset_eq]
    exact ⟨less.blankLines divide, blank, between⟩

/-- Characters that share a passage under the second settings share one under the first. -/
theorem exists_passage (alike : Alike first second block analysis other)
    (less : first.DividesLess second) {passage : Passage} (member : passage ∈ other.passages)
    (xHere : (some x.offset, x.char) ∈ passage.visibleOrigins)
    (yHere : (some y.offset, y.char) ∈ passage.visibleOrigins) :
    ∃ found ∈ analysis.passages, (some x.offset, x.char) ∈ found.visibleOrigins ∧
      (some y.offset, y.char) ∈ found.visibleOrigins := by
  have inOrder {x y : Glyph} (order : x.offset ≤ y.offset)
      (xHere : (some x.offset, x.char) ∈ passage.visibleOrigins)
      (yHere : (some y.offset, y.char) ∈ passage.visibleOrigins) :
      ∃ found ∈ analysis.passages, (some x.offset, x.char) ∈ found.visibleOrigins ∧
        (some y.offset, y.char) ∈ found.visibleOrigins := by
    have shared := (exists_passage_iff alike.otherReading).mp ⟨passage, member, xHere, yHere⟩
    obtain ⟨together, united⟩ := (exists_stretch_iff alike.otherReading order).mp shared
    refine (exists_passage_iff alike.reading).mpr
      ((exists_stretch_iff alike.reading order).mpr ⟨alike.sameSection_iff.mp together, ?_⟩)
    exact fun parted => united (alike.parted_of_parted less together parted)
  rcases Nat.le_total x.offset y.offset with order | order
  · exact inOrder order xHere yHere
  · obtain ⟨found, among, yThere, xThere⟩ := inOrder order yHere xHere
    exact ⟨found, among, xThere, yThere⟩

end Alike

/-- For every comment and any two settings that agree on inline tags and verbatim elements, whatever
divides prose under either: if the comment can be analysed, the two analyses have the same lines,
each byte of them with the same role; the same description, block tags and lines of each; the same
unfinished markup; and passages with the same visible characters, at the same places and in the same
order. If the second settings divide wherever the first do, all visible characters of each passage
of the second analysis are in a single passage of the first. -/
theorem dividing_regroups_prose (block : Fragment) (same : first.SameMarkup second)
    (analysed : ofBlock first block = .ok analysis) :
    ∃ other, ofBlock second block = .ok other ∧
      List.Forall₂ (fun line found => found.line = line.line ∧
        ∀ offset role, found.RoleAt offset role ↔ line.RoleAt offset role)
        analysis.lines other.lines ∧
      other.outline.map id SpannedLine.line = analysis.outline.map id SpannedLine.line ∧
      other.tagReports = analysis.tagReports ∧
      other.unfinished = analysis.unfinished ∧
      other.passages.flatMap Passage.visibleOrigins =
        analysis.passages.flatMap Passage.visibleOrigins ∧
      (first.DividesLess second → ∀ passage ∈ other.passages, ∃! found,
        found ∈ analysis.passages ∧ passage.visibleOrigins ⊆ found.visibleOrigins) := by
  obtain ⟨comment, parsed, rfl⟩ := ofBlock_eq_ok_iff.mp analysed
  have otherAnalysed : ofBlock second block = .ok (ofComment second block.start comment) :=
    ofBlock_eq_ok_iff.mpr ⟨comment, parsed, rfl⟩
  have alike : Alike first second block (ofComment first block.start comment)
      (ofComment second block.start comment) :=
    ⟨isReadingOf_of_ofBlock analysed, isReadingOf_of_ofBlock otherAnalysed,
      SpannedLine.forall₂_alike_ofLines same comment.lines⟩
  have outlines := outline_map_line (ofComment second block.start comment)
  rw [alike.map_line_eq, ← outline_map_line] at outlines
  refine ⟨_, otherAnalysed, ?_, outlines, ?_, ?_, alike.visibleOrigins_eq, ?_⟩
  · exact alike.lines.imp fun line found here => ⟨here.same, fun _ => here.roleAt_iff⟩
  · rw [tagReports_eq_map, outlines, ← tagReports_eq_map]
  · exact ((OpenMarkup.Alike.refl .none).readLines same comment.lines).2
  · intro less passage member
    obtain ⟨x, xHere⟩ := exists_mem_visibleOrigins alike.otherReading member
    obtain ⟨found, among, xThere, -⟩ := alike.exists_passage less member xHere xHere
    refine ⟨found, ⟨among, fun origin here => ?_⟩, fun rival ⟨rivalAmong, inside⟩ => ?_⟩
    · obtain ⟨part, -, -, glyphs⟩ := exists_section_of_mem_passages alike.otherReading member
      obtain ⟨y, -, rfl⟩ := glyphs origin here
      obtain ⟨shared, sharedAmong, xShared, yShared⟩ :=
        alike.exists_passage less member xHere here
      rwa [eq_of_mem_visibleOrigins alike.reading among sharedAmong xThere xShared]
    · exact eq_of_mem_visibleOrigins alike.reading rivalAmong among (inside xHere) xThere

/-- Where no element divides, the passages `a` and `b` of the standard settings are one. -/
theorem dividing_regroups_prose_at_element :
    ∃ settings : Settings, settings.SameMarkup .standard ∧ settings.DividesLess .standard ∧
      ∃ analysis, ofBlock settings ⟨0, "/** a<p>b*/".toList⟩ = .ok analysis ∧
        analysis.passages.map Passage.text = ["ab".toList] ∧
        ∃ other, ofBlock .standard ⟨0, "/** a<p>b*/".toList⟩ = .ok other ∧
          other.passages.map Passage.text = [['a'], ['b']] ∧
          ∀ passage ∈ other.passages, ∃! found,
            found ∈ analysis.passages ∧ passage.visibleOrigins ⊆ found.visibleOrigins := by
  have same : Settings.SameMarkup { Settings.standard with blockElements := [] } .standard :=
    ⟨fun _ => rfl, fun _ => rfl⟩
  have less : Settings.DividesLess { Settings.standard with blockElements := [] } .standard :=
    ⟨fun _ => nofun, id, id⟩
  have analysed : ofBlock { Settings.standard with blockElements := [] }
      ⟨0, "/** a<p>b*/".toList⟩ = .ok
      { offset := 0
        comment := ⟨" a<p>b".toList, []⟩
        lines :=
          [⟨⟨3, [' '], "a<p>b".toList, []⟩,
            [⟨.prose, ⟨4, 5⟩, false⟩, ⟨.markup, ⟨5, 8⟩, false⟩, ⟨.prose, ⟨8, 9⟩, false⟩]⟩]
        unfinished := []
        passages := [⟨0, 0, .description, "ab".toList, ⟨[⟨4, 1⟩, ⟨8, 1⟩]⟩⟩] } := by decide +kernel
  have otherAnalysed : ofBlock .standard ⟨0, "/** a<p>b*/".toList⟩ = .ok
      { offset := 0
        comment := ⟨" a<p>b".toList, []⟩
        lines :=
          [⟨⟨3, [' '], "a<p>b".toList, []⟩,
            [⟨.prose, ⟨4, 5⟩, false⟩, ⟨.markup, ⟨5, 8⟩, true⟩, ⟨.prose, ⟨8, 9⟩, false⟩]⟩]
        unfinished := []
        passages :=
          [⟨0, 0, .description, ['a'], ⟨[⟨4, 1⟩]⟩⟩,
          ⟨0, 1, .description, ['b'], ⟨[⟨8, 1⟩]⟩⟩] } := by decide +kernel
  obtain ⟨other, found, -, -, -, -, -, regroups⟩ := dividing_regroups_prose _ same analysed
  obtain rfl := Except.ok.inj (otherAnalysed.symm.trans found)
  exact ⟨_, same, less, _, analysed, rfl, _, otherAnalysed, rfl, regroups less⟩

end Analysis

end CommentProse
