import CommentProse.Proofs.Coverage
import CommentProse.Proofs.Markup.Relocation
import Mathlib.Data.Option.Basic

/-! # Lines that stand elsewhere

Lines with the same contents are read to the same spans wherever they stand and however far apart,
if nothing is open where they begin: there is a move of offsets, `relocation`, that takes the lines
of one layout to those of the other in order, reading commutes with it, and so does making markup of
what is given up, in whatever line that began (`SpannedLine.exists_forall₂_movesTo`).
-/

namespace CommentProse

variable {move : Nat → Nat}

/-! ### Tag lines -/

namespace Fragment.MovesTo

variable {source target : Fragment}

theorem takeWhile (moves : source.MovesTo move target) (p : Char → Bool) :
    (source.takeWhile p).MovesTo move (target.takeWhile p) := by
  have part := moves.part [] (source.text.takeWhile p) (source.text.dropWhile p)
    List.takeWhile_append_dropWhile.symm
  rw [Fragment.takeWhile, Fragment.takeWhile, moves.text]
  exact part

theorem dropWhile (moves : source.MovesTo move target) (p : Char → Bool) :
    (source.dropWhile p).MovesTo move (target.dropWhile p) := by
  have part := moves.part (source.text.takeWhile p) (source.text.dropWhile p) []
    (by rw [List.append_nil, List.takeWhile_append_dropWhile])
  rw [Fragment.dropWhile, Fragment.dropWhile, moves.text]
  exact part

/-- The empty fragment at the start. -/
theorem front (moves : source.MovesTo move target) :
    MovesTo move ⟨source.start, []⟩ ⟨target.start, []⟩ :=
  moves.part [] [] source.text rfl

theorem isEmpty (moves : source.MovesTo move target) : target.isEmpty = source.isEmpty := by
  rw [Fragment.isEmpty, Fragment.isEmpty, moves.text]

theorem map_relocate_ofFragment (moves : source.MovesTo move target) (role : Role) :
    Span.ofFragment role target = (Span.ofFragment role source).map (Span.relocate move) := by
  rw [Span.ofFragment, Span.ofFragment, moves.isEmpty]
  split
  · rfl
  · simp only [List.map_singleton, Span.relocate, ByteRange.relocate, Fragment.range, moves.start,
      moves.stop]

end Fragment.MovesTo

namespace TagHead

/-- The same tag line elsewhere. -/
structure MovesTo (move : Nat → Nat) (source target : TagHead) : Prop where
  marker : source.marker.MovesTo move target.marker
  name : source.name.MovesTo move target.name
  gap : source.gap.MovesTo move target.gap
  argument : Option.Rel (Fragment.MovesTo move) source.argument target.argument
  body : source.body.MovesTo move target.body

variable {source target : TagHead}

namespace MovesTo

theorem argument_text (moves : source.MovesTo move target) :
    target.argument.map Fragment.text = source.argument.map Fragment.text := by
  obtain ⟨marker, name, gap, argument, body⟩ := source
  obtain ⟨marker', name', gap', argument', body'⟩ := target
  cases moves.argument with
  | none => rfl
  | some word => exact congrArg some word.text

theorem spans (moves : source.MovesTo move target) :
    target.spans = source.spans.map (Span.relocate move) := by
  have argument : (target.argument.map (Span.ofFragment .argument)).getD [] =
      ((source.argument.map (Span.ofFragment .argument)).getD []).map (Span.relocate move) := by
    obtain ⟨marker, name, gap, argument, body⟩ := source
    obtain ⟨marker', name', gap', argument', body'⟩ := target
    cases moves.argument with
    | none => rfl
    | some word => exact word.map_relocate_ofFragment .argument
  simp only [TagHead.spans, List.map_append, argument, moves.marker.map_relocate_ofFragment,
    moves.name.map_relocate_ofFragment, moves.gap.map_relocate_ofFragment]

end MovesTo

theorem ofName_movesTo {marker marker' nameOn nameOn' : Fragment}
    (front : marker.MovesTo move marker') (back : nameOn.MovesTo move nameOn') :
    (ofName marker nameOn).MovesTo move (ofName marker' nameOn') := by
  have name := back.takeWhile isNameChar
  have rest := back.dropWhile isNameChar
  have gap := rest.takeWhile isBlank
  have word := (rest.dropWhile isBlank).takeWhile (!isBlank ·)
  have body := (rest.dropWhile isBlank).dropWhile (!isBlank ·)
  rw [ofName, ofName]
  dsimp only [Fragment.spanWhile]
  rw [name.text, word.isEmpty]
  split
  · exact ⟨front, name, gap, .some word, body⟩
  · exact ⟨front, name, rest.front, .none, rest⟩

/-- Whether a line is a tag line, and with which parts, does not depend on where it stands. -/
theorem parse?_movesTo {source target : Fragment} (moves : source.MovesTo move target) :
    Option.Rel (MovesTo move) (parse? source) (parse? target) := by
  have visible := moves.dropWhile isBlank
  have indent := moves.takeWhile isBlank
  have whole := source.text_takeWhile_append_dropWhile isBlank
  rw [parse?, parse?]
  dsimp only [Fragment.spanWhile]
  rw [visible.text]
  split
  · next text signed =>
    rw [signed] at whole
    have marker := moves.part [] ((source.takeWhile isBlank).text ++ ['@']) text (by simp [whole])
    have name := visible.part ['@'] text [] (by simp [signed])
    have empty := (name.takeWhile isNameChar).isEmpty
    rw [indent.text]
    split
    · next unnamed =>
      rw [if_pos (empty.trans unnamed)]
      exact .none
    · next named =>
      rw [if_neg (empty ▸ named)]
      exact .some (ofName_movesTo marker name)
  · exact .none

end TagHead

/-! ### Lines -/

namespace CommentLine

variable {line line' : CommentLine}

theorem tagHead?_movesTo (moves : line.content.MovesTo move line'.content) :
    Option.Rel (TagHead.MovesTo move) line.tagHead? line'.tagHead? :=
  TagHead.parse?_movesTo moves

theorem isBlank_eq (moves : line.content.MovesTo move line'.content) :
    line'.isBlank = line.isBlank := congrArg allBlank moves.text

theorem edge?_eq (moves : line.content.MovesTo move line'.content) : line'.edge? = line.edge? := by
  have heads := tagHead?_movesTo moves
  rw [edge?, edge?, isBlank_eq moves]
  generalize line.tagHead? = source at heads ⊢
  generalize line'.tagHead? = target at heads ⊢
  cases heads <;> rfl

end CommentLine

namespace OpenMarkup

variable {line line' : CommentLine} {reach : Nat}

theorem openAt_relocate (markup : OpenMarkup) (moves : line.content.MovesTo move line'.content) :
    (markup.relocate move reach).openAt line' = (markup.openAt line).relocate move reach := by
  rw [openAt, openAt, CommentLine.edge?_eq moves]
  cases line.edge? with
  | none => rfl
  | some edge => exact closed_relocate edge markup

theorem unfinishedBefore_relocate (markup : OpenMarkup)
    (moves : line.content.MovesTo move line'.content) :
    (markup.relocate move (move markup.reach)).unfinishedBefore line' =
      (markup.unfinishedBefore line).map (·.relocate move) := by
  rw [unfinishedBefore, unfinishedBefore, CommentLine.edge?_eq moves]
  cases line.edge? with
  | none => rfl
  | some edge => exact unfinished_relocate edge markup

theorem readContent_relocate (settings : Settings) (markup : OpenMarkup)
    (moves : line.content.MovesTo move line'.content) :
    (markup.relocate move reach).readContent settings line' =
      ((markup.readContent settings line).1.map (Span.relocate move),
        (markup.readContent settings line).2.relocate move
          (move (markup.readContent settings line).2.reach)) := by
  have heads := CommentLine.tagHead?_movesTo moves
  rw [readContent, readContent]
  generalize line.tagHead? = source at heads ⊢
  generalize line'.tagHead? = target at heads ⊢
  cases heads with
  | none =>
    dsimp only
    rw [readLine_relocate settings markup moves, ← moves.stop]
    rfl
  | some parts =>
    dsimp only
    rw [readLine_relocate settings markup parts.body, parts.spans, List.map_append,
      ← parts.body.stop]
    rfl

/-- Reading the same lines elsewhere, with the same markup open at first. -/
theorem readLines_relocate (settings : Settings) (markup : OpenMarkup)
    {lines lines' : List CommentLine}
    (moves : List.Forall₂ (fun line line' => line.content.MovesTo move line'.content)
      lines lines') :
    (markup.relocate move (move markup.reach)).readLines settings lines' =
      ((markup.readLines settings lines).1.map (List.map (Span.relocate move)),
        (markup.readLines settings lines).2.map (·.relocate move)) := by
  induction moves generalizing markup with
  | nil =>
    rw [readLines, readLines, unfinished_relocate]
    rfl
  | cons here later ih =>
    rw [readLines, readLines, unfinishedBefore_relocate markup here, openAt_relocate markup here,
      readContent_relocate settings _ here]
    dsimp only
    rw [ih, List.map_append]
    rfl

/-- Where nothing is open at first, it does not matter either where the lines before ended. -/
theorem readLines_idle_relocate (settings : Settings) (reach reach' : Nat)
    {lines lines' : List CommentLine}
    (moves : List.Forall₂ (fun line line' => line.content.MovesTo move line'.content)
      lines lines') :
    (idle reach').readLines settings lines' =
      (((idle reach).readLines settings lines).1.map (List.map (Span.relocate move)),
        ((idle reach).readLines settings lines).2.map (·.relocate move)) := by
  cases moves with
  | nil => rfl
  | cons here later =>
    have first : (idle reach').readContent settings _ = _ :=
      readContent_relocate settings (idle reach) here
    rw [readLines, readLines, openAt_idle, openAt_idle, unfinishedBefore_idle,
      unfinishedBefore_idle, first]
    dsimp only
    rw [readLines_relocate settings _ later]
    rfl

end OpenMarkup

/-! ### Two layouts of the same lines -/

/-- Moves offsets in the first fragment of each pair to the same places in the second. -/
def relocation : List (Fragment × Fragment) → Nat → Nat
  | [], offset => offset
  | (source, target) :: pairs, offset =>
    if offset ≤ source.stop then target.start + (offset - source.start)
    else relocation pairs offset

/-- Both fragments of a pair stand before those of a later one. -/
def Precedes (pair later : Fragment × Fragment) : Prop :=
  pair.1.stop < later.1.start ∧ pair.2.stop < later.2.start

/-- Fragments of equal text in pairs, in the same order in both layouts. -/
structure PairedInOrder (pairs : List (Fragment × Fragment)) : Prop where
  text : ∀ pair ∈ pairs, pair.2.text = pair.1.text
  ordered : pairs.Pairwise Precedes

namespace PairedInOrder

variable {pairs : List (Fragment × Fragment)} {pair : Fragment × Fragment}

theorem relocation_of_mem (paired : PairedInOrder pairs) (member : pair ∈ pairs) {offset : Nat}
    (lower : pair.1.start ≤ offset) (upper : offset ≤ pair.1.stop) :
    relocation pairs offset = pair.2.start + (offset - pair.1.start) := by
  obtain ⟨-, ordered⟩ := paired
  induction pairs with
  | nil => cases member
  | cons first pairs ih =>
    obtain ⟨before, ordered⟩ := List.pairwise_cons.mp ordered
    rw [relocation]
    rcases List.mem_cons.mp member with rfl | later
    · rw [if_pos upper]
    · have apart := (before pair later).1
      rw [if_neg (by omega), ih later ordered]

theorem movesTo (paired : PairedInOrder pairs) (member : pair ∈ pairs) :
    pair.1.MovesTo (relocation pairs) pair.2 where
  text := paired.text pair member
  place := by
    intro count inside
    rw [paired.relocation_of_mem member (Nat.le_add_right _ _)
      (Nat.add_le_add_left inside _), Nat.add_sub_cancel_left]

theorem strictMonoOn (paired : PairedInOrder pairs) :
    StrictMonoOn (relocation pairs)
      {offset | ∃ pair ∈ pairs, pair.1.start ≤ offset ∧ offset ≤ pair.1.stop} := by
  rintro offset ⟨pair, member, lower, upper⟩ later ⟨other, among, lower', upper'⟩ order
  rw [paired.relocation_of_mem member lower upper, paired.relocation_of_mem among lower' upper']
  have size := congrArg width (paired.text pair member)
  have stop : pair.1.stop = pair.1.start + width pair.1.text := rfl
  have stop' : pair.2.stop = pair.2.start + width pair.2.text := rfl
  rcases eq_or_ordered paired.ordered member among with rfl | ⟨_, _⟩ | ⟨_, _⟩
  · omega
  · omega
  · omega

end PairedInOrder

/-- Lines with the same texts move onto each other by one move that keeps the order of all places in
them. -/
theorem CommentLine.exists_strictMonoOn_movesTo {lines lines' : List CommentLine}
    (same : lines.map CommentLine.text = lines'.map CommentLine.text)
    (ordered : lines.Pairwise fun line later => line.stop < later.start)
    (ordered' : lines'.Pairwise fun line later => line.stop < later.start) :
    ∃ move places, StrictMonoOn move places ∧
      List.Forall₂ (fun line line' => line.content.MovesTo move line'.content) lines lines' ∧
      ∀ line ∈ lines, ∀ offset, line.content.start ≤ offset → offset ≤ line.stop →
        offset ∈ places := by
  have texts : List.Forall₂ (fun line line' => CommentLine.text line' = CommentLine.text line)
      lines lines' := by
    have equal : List.Forall₂ Eq (lines'.map CommentLine.text) (lines.map CommentLine.text) :=
      by rw [List.forall₂_eq_eq_eq]; exact same.symm
    exact (List.forall₂_map_left_iff.mp (List.forall₂_map_right_iff.mp equal)).flip
  obtain ⟨pairs, shape⟩ : ∃ pairs, pairs = (lines.zip lines').map fun pair =>
    (pair.1.content, pair.2.content) := ⟨_, rfl⟩
  have paired : PairedInOrder pairs := by
    rw [shape]
    refine ⟨?_, List.pairwise_map.mpr ?_⟩
    · intro pair member
      obtain ⟨⟨line, line'⟩, among, rfl⟩ := List.mem_map.mp member
      exact (List.forall₂_iff_zip.mp texts).2 among
    · have firsts := List.pairwise_map.mp
        ((List.map_fst_zip texts.length_eq.le).symm ▸ ordered)
      have seconds := List.pairwise_map.mp
        ((List.map_snd_zip texts.length_eq.ge).symm ▸ ordered')
      apply (firsts.and seconds).imp
      rintro ⟨line, line'⟩ ⟨later, later'⟩ ⟨first, second⟩
      exact ⟨Nat.lt_of_lt_of_le first (Nat.le_add_right _ _),
        Nat.lt_of_lt_of_le second (Nat.le_add_right _ _)⟩
  refine ⟨_, _, paired.strictMonoOn, List.forall₂_iff_zip.mpr ⟨texts.length_eq, ?_⟩, ?_⟩
  · intro line line' among
    have here : (line.content, line'.content) ∈ pairs := by
      rw [shape]
      exact List.mem_map_of_mem among
    exact paired.movesTo here
  · intro line member offset lower upper
    rw [← List.map_fst_zip texts.length_eq.le] at member
    obtain ⟨pair, among, rfl⟩ := List.mem_map.mp member
    refine ⟨(pair.1.content, pair.2.content), ?_, lower, upper⟩
    rw [shape]
    exact List.mem_map_of_mem among

/-- The same line with the same spans elsewhere. -/
structure SpannedLine.MovesTo (move : Nat → Nat) (source target : SpannedLine) : Prop where
  content : source.line.content.MovesTo move target.line.content
  spans : target.spans = source.spans.map (Span.relocate move)

namespace SpannedLine

/-- Making markup of what is given up commutes with a move that keeps the order of all places in
the lines. -/
private theorem forall₂_movesTo_relabel {places : Set Nat} (ordered : StrictMonoOn move places)
    {unfinished : List Unfinished} (covered : ∀ item ∈ unfinished, item.range.EndsIn places)
    {lines lines' : List CommentLine} {spans : List (List Span)}
    (moves : List.Forall₂ (fun line line' => line.content.MovesTo move line'.content) lines lines')
    (spanned : List.Forall₂ (fun line spans => line.content.IsSpannedBy spans) lines spans)
    (inside : ∀ line ∈ lines, ∀ offset, line.content.start ≤ offset → offset ≤ line.stop →
      offset ∈ places) :
    List.Forall₂ (MovesTo move)
      ((lines.zip spans).map fun (line, spans) => ⟨line, Unfinished.relabel unfinished spans⟩)
      ((lines'.zip (spans.map (List.map (Span.relocate move)))).map fun (line, spans) =>
        ⟨line, Unfinished.relabel (unfinished.map (·.relocate move)) spans⟩) := by
  induction moves generalizing spans with
  | nil => exact .nil
  | cons here later ih =>
    cases spanned with
    | cons first others =>
      refine .cons ⟨here, Unfinished.relabel_relocate ordered covered ?_⟩
        (ih others fun line member => inside line (List.mem_cons_of_mem _ member))
      intro span member
      obtain ⟨lower, positive, upper⟩ := first.tiles.pairwise.2 span member
      exact ⟨inside _ List.mem_cons_self _ lower (positive.le.trans upper),
        inside _ List.mem_cons_self _ (lower.trans positive.le) upper⟩

/-- Lines with the same texts, from a place on where nothing is open: what is read in one layout is
what is read in the other, moved there in order. -/
theorem exists_forall₂_movesTo (settings : Settings) (reach reach' : Nat)
    {lines lines' : List CommentLine}
    (same : lines.map CommentLine.text = lines'.map CommentLine.text)
    (ordered : lines.Pairwise fun line later => line.stop < later.start)
    (ordered' : lines'.Pairwise fun line later => line.stop < later.start) :
    ∃ move, ((OpenMarkup.idle reach').readLines settings lines').2 =
        ((OpenMarkup.idle reach).readLines settings lines).2.map (·.relocate move) ∧
      List.Forall₂ (MovesTo move) (ofLines settings (.idle reach) lines)
        (ofLines settings (.idle reach') lines') := by
  obtain ⟨move, places, strict, moves, inside⟩ :=
    CommentLine.exists_strictMonoOn_movesTo same ordered ordered'
  have read := OpenMarkup.readLines_idle_relocate settings reach reach' moves
  refine ⟨move, congrArg Prod.snd read, ?_⟩
  rw [ofLines, ofLines, read]
  refine forall₂_movesTo_relabel strict ?_ moves
    ((OpenMarkup.forall₂_readLines settings _ lines).imp fun _ _ => And.left) inside
  intro item member
  have stands := OpenMarkup.standsIn_lines_of_mem_readLines settings member
  obtain ⟨line, present, opens⟩ := stands.opened
  obtain ⟨last, among, stop⟩ := stands.exists_last
  refine ⟨inside line present _ opens.bounds.1 opens.bounds.2.le, ?_⟩
  rw [stop]
  exact inside last among _ (Nat.le_add_right _ _) (Nat.le_refl _)

end SpannedLine

end CommentProse
