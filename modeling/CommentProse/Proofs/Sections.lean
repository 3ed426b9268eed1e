import CommentProse.Proofs.Contents
import CommentProse.Proofs.Regrouping
import CommentProse.SyntaxTree

/-! # The sections of a comment in all views

Which section a line belongs to can be told from the ranges of the tags, and it shows in the number
that is reported for the line, in the node of the syntax tree that the line stands in and in the
origin of passages with prose of the line. All of these agree (`Analysis.sections_agree`). What
carries the argument is where a tag stands among the sections: behind the description and the tags
before it, which have as many lines as stand before its tag line (`Outline.exists_sections_eq`).
-/

namespace CommentProse

namespace Outline

variable {α β : Type} {outline : Outline α} {tag : TagSection α} {number before index : Nat}

/-! ### Numbered tags -/

/-- A numbered tag stands behind the lines of the tags before it. -/
private theorem exists_append_of_number {tags : List (TagSection α)} {start : Nat}
    (found : (numberedTags.number start tags)[number]? = some (before, tag)) :
    ∃ front back, tags = front ++ tag :: back ∧ front.length = number ∧
      before = start + (front.flatMap TagSection.lines).length := by
  induction tags generalizing start number with
  | nil => simp [numberedTags.number] at found
  | cons first tags ih =>
    cases number with
    | zero =>
      obtain ⟨rfl, rfl⟩ := Prod.mk.inj (Option.some.inj found)
      exact ⟨[], tags, rfl, rfl, rfl⟩
    | succ number =>
      obtain ⟨front, back, rfl, rfl, rfl⟩ := ih found
      exact ⟨first :: front, back, rfl, rfl, by simp [Nat.add_assoc]⟩

theorem getElem?_tags (found : outline.numberedTags[number]? = some (before, tag)) :
    outline.tags[number]? = some tag := by
  obtain ⟨front, back, shape, rfl, -⟩ := exists_append_of_number found
  rw [shape, List.getElem?_append_right (Nat.le_refl _), Nat.sub_self]
  rfl

/-- The ranges of numbered tags follow each other. -/
private theorem pairwise_number (start : Nat) (tags : List (TagSection α)) :
    (∀ numbered ∈ numberedTags.number start tags, start ≤ numbered.1) ∧
      (numberedTags.number start tags).Pairwise fun numbered later =>
        numbered.1 + numbered.2.lines.length ≤ later.1 := by
  induction tags generalizing start with
  | nil => exact ⟨by simp [numberedTags.number], .nil⟩
  | cons tag tags ih =>
    obtain ⟨lower, ordered⟩ := ih (start + tag.lines.length)
    refine ⟨List.forall_mem_cons.mpr ⟨Nat.le_refl _, fun numbered member => ?_⟩,
      .cons lower ordered⟩
    have := lower numbered member
    omega

/-- The ranges of the tags stand behind the description, in order. -/
theorem pairwise_numberedTags (outline : Outline α) :
    (∀ numbered ∈ outline.numberedTags, outline.description.length ≤ numbered.1) ∧
      outline.numberedTags.Pairwise fun numbered later =>
        numbered.1 + numbered.2.lines.length ≤ later.1 :=
  pairwise_number _ _

/-- The tags begin at the indices of the tag lines. -/
private theorem map_fst_number (head? : α → Option TagHead) (start : Nat) (lines : List α) :
    (numberedTags.number (start + (ofLines head? lines).description.length)
      (ofLines head? lines).tags).map Prod.fst =
      ((lines.zipIdx start).filter fun line => (head? line.1).isSome).map Prod.snd := by
  induction lines generalizing start with
  | nil => rfl
  | cons line lines ih =>
    have rest := ih (start + 1)
    rw [Nat.add_assoc, Nat.add_comm 1] at rest
    rw [ofLines_cons, cons, List.zipIdx_cons]
    cases headed : head? line with
    | none => simpa [headed] using rest
    | some head => simpa [headed, numberedTags.number, TagSection.lines] using rest

/-- A tag begins at an index exactly if a tag line stands there. -/
theorem isSome_head?_iff {head? : α → Option TagHead} {lines : List α} {line : α}
    (there : lines[index]? = some line) :
    (head? line).isSome = true ↔ ∃ tag, (index, tag) ∈ (ofLines head? lines).numberedTags := by
  have starts := map_fst_number head? 0 lines
  rw [Nat.zero_add] at starts
  calc (head? line).isSome = true
    _ ↔ index ∈ ((lines.zipIdx 0).filter fun line => (head? line.1).isSome).map Prod.snd := by
        simp only [List.mem_map, List.mem_filter, Prod.exists, exists_eq_right,
          List.mk_mem_zipIdx_iff_getElem?, there, Option.some.injEq, exists_eq_left']
    _ ↔ index ∈ (ofLines head? lines).numberedTags.map Prod.fst := by
        rw [← starts]
        rfl
    _ ↔ ∃ tag, (index, tag) ∈ (ofLines head? lines).numberedTags := by
        simp only [List.mem_map, Prod.exists, exists_and_right, exists_eq_right]

/-! ### Ranges -/

/-- The indices of the lines of each section: those of the description, then those of each tag. -/
def indices (outline : Outline α) : List (List Nat) :=
  List.range outline.description.length ::
    outline.numberedTags.map fun (before, tag) => List.range' before tag.lines.length

private theorem flatten_number (start : Nat) (tags : List (TagSection α)) :
    ((numberedTags.number start tags).map fun (before, tag) =>
      List.range' before tag.lines.length).flatten =
      List.range' start (tags.flatMap TagSection.lines).length := by
  induction tags generalizing start with
  | nil => rfl
  | cons tag tags ih =>
    rw [numberedTags.number, List.map_cons, List.flatten_cons, ih, List.flatMap_cons,
      List.length_append, List.range'_append_1]

/-- The sections take all lines, one behind the other. -/
theorem flatten_indices (outline : Outline α) :
    outline.indices.flatten = List.range outline.lines.length := by
  have joined := @List.range'_append_1 0 outline.description.length
    (outline.tags.flatMap TagSection.lines).length
  rw [Nat.zero_add] at joined
  rw [indices, List.flatten_cons, numberedTags, flatten_number, lines, List.length_append,
    List.range_eq_range', List.range_eq_range', joined]

/-- A line stands in the description or in the range of a tag. -/
theorem exists_range (inside : index < outline.lines.length) :
    index < outline.description.length ∨
      ∃ (number before : Nat) (tag : TagSection α),
        outline.numberedTags[number]? = some (before, tag) ∧
          before ≤ index ∧ index < before + tag.lines.length := by
  have member : index ∈ outline.indices.flatten := by
    rw [flatten_indices]
    exact List.mem_range.mpr inside
  rw [indices, List.flatten_cons, List.mem_append, List.mem_range] at member
  refine member.imp_right fun tagged => ?_
  obtain ⟨_, among, here⟩ := List.mem_flatten.mp tagged
  obtain ⟨⟨before, tag⟩, numbered, rfl⟩ := List.mem_map.mp among
  obtain ⟨number, found⟩ := List.mem_iff_getElem?.mp numbered
  exact ⟨number, before, tag, found, List.mem_range'_1.mp here⟩

/-- The number of the tag whose range has the index. There is none in the description. -/
def sectionAt (outline : Outline α) (index : Nat) : Option Nat :=
  outline.numberedTags.findIdx? fun (before, tag) =>
    before ≤ index && index < before + tag.lines.length

theorem sectionAt_of_lt_description (early : index < outline.description.length) :
    outline.sectionAt index = none := by
  rw [sectionAt, List.findIdx?_eq_none_iff]
  intro numbered member
  have lower := outline.pairwise_numberedTags.1 numbered member
  have outside : ¬numbered.1 ≤ index := by omega
  simp [outside]

theorem sectionAt_of_numberedTags
    (found : outline.numberedTags[number]? = some (before, tag)) (lower : before ≤ index)
    (upper : index < before + tag.lines.length) : outline.sectionAt index = some number := by
  obtain ⟨inside, here⟩ := List.getElem?_eq_some_iff.mp found
  rw [sectionAt, List.findIdx?_eq_some_iff_getElem]
  refine ⟨inside, by simp [here, lower, upper], fun other earlier => ?_⟩
  have ends := List.pairwise_iff_getElem.mp outline.pairwise_numberedTags.2 other number
    (Nat.lt_trans earlier inside) inside earlier
  rw [here] at ends
  have outside : ¬index < (outline.numberedTags[other]).1 +
      (outline.numberedTags[other]).2.lines.length := Nat.not_lt.mpr (Nat.le_trans ends lower)
  simp [outside]

/-! ### Sections -/

/-- A tag is the section behind the description and the tags before it, and these have the lines
before its tag line. -/
theorem exists_sections_eq (found : outline.numberedTags[number]? = some (before, tag)) :
    ∃ front back, outline.sections = front ++ (.tag number tag.name, tag.lines) :: back ∧
      (front.flatMap Prod.snd).length = before := by
  obtain ⟨description, tags⟩ := outline
  obtain ⟨front, back, rfl, rfl, rfl⟩ := exists_append_of_number found
  refine ⟨sections ⟨description, front⟩, _, sections_append description front (tag :: back), ?_⟩
  rw [flatMap_sections, lines, List.length_append]

/-- A tag has its lines behind as many lines as stand before it. -/
theorem take_drop_lines (found : outline.numberedTags[number]? = some (before, tag)) :
    (outline.lines.drop before).take tag.lines.length = tag.lines := by
  obtain ⟨front, back, shape, rfl⟩ := exists_sections_eq found
  rw [← flatMap_sections, shape, List.flatMap_append, List.flatMap_cons, List.drop_left,
    List.take_left]

end Outline

/-- The number of the tag that the prose is from. -/
def Origin.tagNumber : Origin → Option Nat
  | .description => none
  | .tag number _ => some number

/-! ### Nodes -/

namespace SyntaxTree

/-- The children of a node of this kind. -/
def children? (kind : NodeKind) : SyntaxTree → Option (List SyntaxTree)
  | .node found children => if found = kind then some children else none
  | .token _ _ => none

/-- The nodes of a kind right below the root, told by their children. -/
def nodesOf (kind : NodeKind) : SyntaxTree → List (List SyntaxTree)
  | .node _ children => children.filterMap (children? kind)
  | .token _ _ => []

theorem filterMap_ofFragment (kind : NodeKind) (token : TokenKind) (source : Fragment) :
    (ofFragment token source).filterMap (children? kind) = [] := by
  rw [ofFragment]
  split <;> rfl

/-- The description is one node, unless it has no lines. -/
theorem nodesOf_description {analysis : Analysis} (nonempty : analysis.outline.description ≠ []) :
    (ofAnalysis analysis).nodesOf .description = [analysis.outline.description.map ofLine] := by
  have other : (analysis.outline.tags.map fun tag =>
      node .blockTag (tag.lines.map ofLine)).filterMap (children? .description) = [] := by
    simp [children?]
  have here : (ofDescription analysis.outline.description).filterMap (children? .description) =
      [analysis.outline.description.map ofLine] := by
    rw [ofDescription, if_neg (by simpa using nonempty)]
    rfl
  simp only [ofAnalysis, nodesOf, List.filterMap_append, filterMap_ofFragment, other, here,
    List.nil_append, List.append_nil]

/-- Each tag is a node. -/
theorem nodesOf_blockTag (analysis : Analysis) :
    (ofAnalysis analysis).nodesOf .blockTag =
      analysis.outline.tags.map fun tag => tag.lines.map ofLine := by
  have here : (analysis.outline.tags.map fun tag =>
      node .blockTag (tag.lines.map ofLine)).filterMap (children? .blockTag) =
        analysis.outline.tags.map fun tag => tag.lines.map ofLine := by
    rw [List.filterMap_map]
    exact congrFun List.filterMap_eq_map _
  have other :
      (ofDescription analysis.outline.description).filterMap (children? .blockTag) = [] := by
    rw [ofDescription]
    split <;> rfl
  simp only [ofAnalysis, nodesOf, List.filterMap_append, filterMap_ofFragment, other, here,
    List.nil_append, List.append_nil]

end SyntaxTree

/-! ### Lines in the views -/

/-- The parts of a list come one after the other. -/
theorem getElem?_flatMap_append {α β : Type} (parts : α → List β) (front back : List α) {part : α}
    {position : Nat} (inside : position < (parts part).length) :
    ((front ++ part :: back).flatMap parts)[(front.flatMap parts).length + position]? =
      (parts part)[position]? := by
  rw [List.flatMap_append, List.flatMap_cons, List.getElem?_append_right (Nat.le_add_right ..),
    Nat.add_sub_cancel_left, List.getElem?_append_left inside]

namespace Analysis

variable {settings : Settings} {block : Fragment} {analysis : Analysis} {line : SpannedLine}
  {front back : List (Origin × List SpannedLine)} {part : Origin × List SpannedLine}
  {index position : Nat}

/-- The lines of a section have the number of its tag. -/
theorem getElem?_sectionIndices (shape : analysis.outline.sections = front ++ part :: back)
    (inside : position < part.2.length) :
    analysis.sectionIndices[(front.flatMap Prod.snd).length + position]? =
      some part.1.tagNumber := by
  have numbers : analysis.sectionIndices = analysis.outline.sections.flatMap fun part =>
      part.2.map fun _ => part.1.tagNumber := by
    refine List.flatMap_congr fun ⟨origin, lines⟩ _ => ?_
    cases origin <;> rfl
  have size : (front.flatMap Prod.snd).length =
      (front.flatMap fun part => part.2.map fun _ => part.1.tagNumber).length := by
    simp only [List.length_flatMap, List.length_map]
  rw [numbers, shape, size, getElem?_flatMap_append _ _ _ (by simpa using inside)]
  simp [inside]

namespace IsReadingOf

/-- A line is in one section. -/
theorem eq_of_mem_sections (reading : analysis.IsReadingOf settings block)
    {other : Origin × List SpannedLine} (present : part ∈ analysis.outline.sections)
    (otherPresent : other ∈ analysis.outline.sections) (member : line ∈ part.2)
    (among : line ∈ other.2) : part = other := by
  have ordered := reading.pairwise_lines
  rw [← flatMap_sectionsOf analysis.lines] at ordered
  have forward := DocComment.start_le_stop line.line
  rcases eq_or_ordered (List.pairwise_flatMap.mp ordered).2 present otherPresent with
    same | before | behind
  · exact same
  · have := before line member line among
    omega
  · have := behind line among line member
    omega

/-- The prose of a line is in passages of its section. -/
theorem origin_eq (reading : analysis.IsReadingOf settings block)
    (present : part ∈ analysis.outline.sections) (among : line ∈ part.2) {passage : Passage}
    (member : passage ∈ analysis.passages) {source : Nat}
    (taken : source ∈ passage.provenance.offsets)
    (inside : source ∈ line.line.content.range.shift analysis.offset) :
    passage.origin = part.1 := by
  rw [reading.passages] at member
  obtain ⟨other, otherPresent, -, named, made⟩ := exists_section_of_mem_passagesOf member
  -- The byte is from an item of a line of the other section, and the line can only be this one.
  have bytes := (ProseItem.sublist_offsets_passages _).subset
    (List.mem_flatMap.mpr ⟨_, made, taken⟩)
  obtain ⟨item, itemMember, byte⟩ := List.mem_flatMap.mp bytes
  obtain ⟨own, ownMember, placed, here, rfl⟩ := exists_placedItem_of_mem itemMember
  have ownPresent := subset_of_mem_sectionsOf otherPresent ownMember
  have bounds := SpannedLine.bounds_of_mem_placedItems (reading.spanned own ownPresent) here
  have range := bounds.2.2.2 source byte
  rw [reading.offset] at inside
  have start : line.line.start ≤ line.line.content.start := Nat.le_add_right _ _
  have stop : line.line.content.stop = line.line.stop := rfl
  simp only [ByteRange.mem_iff, ByteRange.shift, Fragment.range] at inside range
  have linePresent := subset_of_mem_sectionsOf present among
  rcases eq_or_ordered reading.pairwise_lines linePresent ownPresent with rfl | before | behind
  · rw [named, reading.eq_of_mem_sections present otherPresent among ownMember]
  · omega
  · omega

end IsReadingOf

/-- What the views of a comment say of the line at an index: its prose is from `origin`, and its
node is the one at `position` in the node with this number among those of the kind. -/
structure PutsLine (analysis : Analysis) (index : Nat) (line : SpannedLine) (origin : Origin)
    (kind : NodeKind) (ordinal position : Nat) : Prop where
  /-- The ranges of the tags have the index in the tag of the origin. -/
  range : (Outline.ofLines CommentLine.tagHead? analysis.comment.lines).sectionAt index =
    origin.tagNumber
  /-- The number of the same tag is reported for the line. -/
  number : analysis.sectionIndices[index]? = some origin.tagNumber
  node : ∃ children, ((SyntaxTree.ofAnalysis analysis).nodesOf kind)[ordinal]? = some children ∧
    children[position]? = some (.ofLine line)
  prose : ∀ passage ∈ analysis.passages, ∀ source ∈ passage.provenance.offsets,
    source ∈ line.line.content.range.shift analysis.offset → passage.origin = origin

/-- All views put a line where the sections have it. -/
theorem IsReadingOf.putsLine (reading : analysis.IsReadingOf settings block)
    (there : analysis.lines[index]? = some line)
    (shape : analysis.outline.sections = front ++ part :: back)
    (counted : index = (front.flatMap Prod.snd).length + position)
    (inside : position < part.2.length)
    (range : (Outline.ofLines CommentLine.tagHead? analysis.comment.lines).sectionAt index =
      part.1.tagNumber)
    {kind : NodeKind} {ordinal : Nat}
    (node : ((SyntaxTree.ofAnalysis analysis).nodesOf kind)[ordinal]? =
      some (part.2.map SyntaxTree.ofLine)) :
    analysis.PutsLine index line part.1 kind ordinal position := by
  subst counted
  have whole := flatMap_sectionsOf analysis.lines
  change analysis.outline.sections.flatMap Prod.snd = analysis.lines at whole
  have here : part.2[position]? = some line := by
    rw [← there, ← whole, shape, getElem?_flatMap_append _ _ _ inside]
  have present : part ∈ analysis.outline.sections := shape ▸ by simp
  refine ⟨range, getElem?_sectionIndices shape inside, ⟨_, node, ?_⟩, ?_⟩
  · rw [List.getElem?_map, here]
    rfl
  · intro passage member source taken
    exact reading.origin_eq present (List.mem_of_getElem? here) member taken

/-- The line at an index is put into the section of the lines of the comment whose range has the
index. -/
theorem IsReadingOf.exists_putsLine (reading : analysis.IsReadingOf settings block)
    {split : Outline CommentLine}
    (arranged : split = Outline.ofLines CommentLine.tagHead? analysis.comment.lines)
    (there : analysis.lines[index]? = some line) :
    index < split.description.length ∧
        analysis.PutsLine index line .description .description 0 index ∨
      ∃ number before tag, split.numberedTags[number]? = some (before, tag) ∧ before ≤ index ∧
        index < before + tag.lines.length ∧
        analysis.PutsLine index line (.tag number tag.name) .blockTag number (index - before) := by
  have spanned : split = analysis.outline.map id SpannedLine.line := by
    rw [outline_map_line, reading.lines, arranged]
  have inside : index < split.lines.length := by
    rw [arranged, Outline.lines_ofLines, ← reading.lines, List.length_map]
    exact (List.getElem?_eq_some_iff.mp there).1
  rcases Outline.exists_range inside with early | ⟨number, before, tag, found, lower, upper⟩
  · have within : index < analysis.outline.description.length := by
      simpa [spanned, Outline.map] using early
    have nonempty : analysis.outline.description ≠ [] := List.ne_nil_of_length_pos (by omega)
    obtain ⟨back, shape⟩ : ∃ back, analysis.outline.sections =
        [] ++ (.description, analysis.outline.description) :: back := ⟨_, rfl⟩
    have range : split.sectionAt index = none := Outline.sectionAt_of_lt_description early
    rw [arranged] at range
    refine .inl ⟨early, reading.putsLine there shape (Nat.zero_add _).symm within range ?_⟩
    rw [SyntaxTree.nodesOf_description nonempty]
    rfl
  · have range := Outline.sectionAt_of_numberedTags found lower upper
    rw [arranged] at range
    -- The tag of the comment's lines is a tag of the spanned lines without their spans.
    have source := found
    rw [spanned, Outline.numberedTags_map, List.getElem?_map] at source
    obtain ⟨⟨start, tag⟩, sourceFound, same⟩ := Option.map_eq_some_iff.mp source
    obtain ⟨rfl, rfl⟩ := Prod.mk.inj same
    refine .inr ⟨number, _, _, found, lower, upper, ?_⟩
    rw [TagSection.lines_map, List.length_map] at upper
    obtain ⟨front, back, shape, rfl⟩ := Outline.exists_sections_eq sourceFound
    refine reading.putsLine there shape (by omega) (by dsimp only; omega) range ?_
    rw [SyntaxTree.nodesOf_blockTag, List.getElem?_map, Outline.getElem?_tags sourceFound]
    rfl

/-- All views of the sections of a comment agree. The description and the tags, as the lines of the
comment are split, take all lines, one behind the other; a tag begins at each tag line and at no
other line, and it has one part of its body for each of its lines, the rest of the tag line first
and then whole contents. Each line is put into the section whose range has its index: by the number
that is reported for it, by the node of the syntax tree that it stands in, and by the origin of
every passage with prose of it. -/
theorem sections_agree (settings : Settings) (block : Fragment) {analysis : Analysis}
    (analysed : ofBlock settings block = .ok analysis) :
    let split := Outline.ofLines CommentLine.tagHead? analysis.comment.lines
    split.indices.flatten = List.range analysis.lines.length ∧
    (∀ index line, analysis.lines[index]? = some line →
      ((TagHead.parse? line.line.content).isSome = true ↔
        ∃ tag, (index, tag) ∈ split.numberedTags)) ∧
    (∀ before tag, (before, tag) ∈ split.numberedTags →
      ((analysis.lines.map SpannedLine.line).drop before).take tag.lines.length = tag.lines ∧
      TagHead.parse? tag.opening.content = some tag.head ∧
      (∀ line ∈ tag.following, TagHead.parse? line.content = none) ∧
      tag.body CommentLine.content = tag.head.body :: tag.following.map CommentLine.content ∧
      (tag.body CommentLine.content).length = tag.lines.length) ∧
    ∀ index line, analysis.lines[index]? = some line →
      index < split.description.length ∧
          analysis.PutsLine index line .description .description 0 index ∨
        ∃ number before tag, split.numberedTags[number]? = some (before, tag) ∧ before ≤ index ∧
          index < before + tag.lines.length ∧
          analysis.PutsLine index line (.tag number tag.name) .blockTag number
            (index - before) := by
  intro split
  have reading := isReadingOf_of_ofBlock analysed
  have splitLines : split.lines = analysis.lines.map SpannedLine.line := by
    rw [reading.lines]
    exact Outline.lines_ofLines ..
  refine ⟨?_, fun index line there => ?_, fun before tag member => ?_, fun index line there => ?_⟩
  · rw [Outline.flatten_indices, splitLines, List.length_map]
  · have written : analysis.comment.lines[index]? = some line.line := by
      rw [← reading.lines, List.getElem?_map, there]
      rfl
    change (CommentLine.tagHead? line.line).isSome = true ↔ _
    exact Outline.isSome_head?_iff written
  · obtain ⟨number, found⟩ := List.mem_iff_getElem?.mp member
    have heads := Outline.head?_of_ofLines CommentLine.tagHead? analysis.comment.lines
    obtain ⟨headed, bare⟩ := heads.2 tag (List.mem_of_getElem? (Outline.getElem?_tags found))
    refine ⟨?_, headed, bare, rfl, by simp [TagSection.body, TagSection.lines]⟩
    rw [← splitLines]
    exact Outline.take_drop_lines found
  · exact reading.exists_putsLine rfl there

/-- The first tag stands on the first line, so the description has no line. The second line is put
into the node and the passage of that tag by its index. -/
theorem sections_agree_tag_first :
    ∃ analysis, ofBlock .standard ⟨7, "/** @see A\n * b\n@since c*/".toList⟩ = .ok analysis ∧
      (Outline.ofLines CommentLine.tagHead? analysis.comment.lines).indices = [[], [0, 1], [2]] ∧
      ∃ line, analysis.lines[1]? = some line ∧
        analysis.PutsLine 1 line (.tag 0 "see") .blockTag 0 1 := by
  have analysed : ofBlock .standard ⟨7, "/** @see A\n * b\n@since c*/".toList⟩ = .ok
      { offset := 7
        comment := ⟨" @see A\n * b\n@since c".toList, []⟩
        lines :=
          [⟨⟨3, [' '], "@see A".toList, ['\n']⟩,
            [⟨.markup, ⟨4, 5⟩, false⟩, ⟨.tagName, ⟨5, 8⟩, false⟩, ⟨.markup, ⟨8, 9⟩, false⟩,
              ⟨.argument, ⟨9, 10⟩, false⟩]⟩,
          ⟨⟨11, " * ".toList, ['b'], ['\n']⟩, [⟨.prose, ⟨14, 15⟩, false⟩]⟩,
          ⟨⟨16, [], "@since c".toList, []⟩,
            [⟨.markup, ⟨16, 17⟩, false⟩, ⟨.tagName, ⟨17, 22⟩, false⟩, ⟨.prose, ⟨22, 24⟩, false⟩]⟩]
        unfinished := []
        passages := [⟨7, 0, .tag 0 "see", ['b'], ⟨[⟨21, 1⟩]⟩⟩,
          ⟨7, 1, .tag 1 "since", ['c'], ⟨[⟨30, 1⟩]⟩⟩] } := by decide +kernel
  obtain ⟨-, -, -, places⟩ := sections_agree _ _ analysed
  refine ⟨_, analysed, by decide +kernel, _, rfl, ?_⟩
  rcases places 1 _ rfl with ⟨early, -⟩ | ⟨number, before, tag, found, -, -, puts⟩
  · exact absurd early (by decide +kernel)
  · have told : some (some 0) = some (some number) := puts.number
    obtain rfl : 0 = number := Option.some.inj (Option.some.inj told)
    obtain ⟨rfl, rfl⟩ := Prod.mk.inj (Option.some.inj found)
    exact puts

end Analysis

end CommentProse
