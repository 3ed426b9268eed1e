import CommentProse.Analysis
import Mathlib.Data.List.Basic
import Mathlib.Order.MinMax

/-! # Reading does not depend on places

Open markup remembers offsets, but no step looks at them. If all offsets are moved to other places
and the text is read there, the pieces are the same, and what is open behind them is what was open,
with its offsets moved. The moves may be by different distances in different lines, so they are any
function of offsets; along a text that is read it has to keep distances (`Fragment.MovesTo`), and
where spans are relabelled, the order of their ends and of those of the range.
-/

namespace CommentProse

variable {move : Nat → Nat}

/-- The source stands at another place, and offsets in it are moved accordingly. -/
structure Fragment.MovesTo (move : Nat → Nat) (source target : Fragment) : Prop where
  text : target.text = source.text
  place : ∀ count ≤ width source.text, move (source.start + count) = target.start + count

namespace Fragment.MovesTo

variable {source target : Fragment}

theorem start (moves : source.MovesTo move target) : move source.start = target.start :=
  moves.place 0 (Nat.zero_le _)

theorem stop (moves : source.MovesTo move target) : move source.stop = target.stop := by
  rw [Fragment.stop, Fragment.stop, moves.text]
  exact moves.place _ (Nat.le_refl _)

/-- A part of the source moves to the same part of the target. -/
theorem part (moves : source.MovesTo move target) (left middle right : List Char)
    (parts : source.text = left ++ middle ++ right) :
    MovesTo move ⟨source.start + width left, middle⟩ ⟨target.start + width left, middle⟩ where
  text := rfl
  place := by
    intro count inside
    dsimp only at inside ⊢
    have total := congrArg width parts
    simp only [width_append] at total
    rw [Nat.add_assoc, Nat.add_assoc]
    exact moves.place _ (by omega)

/-- Fragments with the same text differ by a move. -/
theorem exists_of_text (source target : Fragment) (same : target.text = source.text) :
    ∃ move, source.MovesTo move target :=
  ⟨fun offset => offset - source.start + target.start, same, fun count _ => by omega⟩

end Fragment.MovesTo

def OpenTag.relocate (move : Nat → Nat) (tag : OpenTag) : OpenTag :=
  { tag with start := move tag.start }

def OpenReference.relocate (move : Nat → Nat) (reference : OpenReference) : OpenReference :=
  { reference with start := move reference.start }

def OpenElement.relocate (move : Nat → Nat) (element : OpenElement) : OpenElement :=
  { element with start := move element.start }

def ByteRange.relocate (move : Nat → Nat) (range : ByteRange) : ByteRange :=
  ⟨move range.start, move range.stop⟩

def Span.relocate (move : Nat → Nat) (span : Span) : Span :=
  { span with range := span.range.relocate move }

def Unfinished.relocate (move : Nat → Nat) (item : Unfinished) : Unfinished :=
  { item with range := item.range.relocate move }

/-- The same markup is open, but at other places and behind another line. -/
def OpenMarkup.relocate (move : Nat → Nat) (reach : Nat) (markup : OpenMarkup) : OpenMarkup where
  tag := markup.tag.map (·.relocate move)
  references := markup.references.map (·.relocate move)
  verbatim := markup.verbatim.map (·.relocate move)
  reach := reach

def Advance.relocate (move : Nat → Nat) (reach : Nat) (advance : Advance) : Advance :=
  { advance with markup := advance.markup.relocate move reach }

/-- Pieces laid out in one place move to where they are laid out in another. -/
theorem Span.map_relocate_place {source target : Fragment} (moves : source.MovesTo move target)
    {pieces : List Piece} (parts : pieces.flatMap Piece.text = source.text) :
    (place source.start pieces).map (relocate move) = place target.start pieces := by
  induction pieces generalizing source target with
  | nil => rfl
  | cons piece pieces ih =>
    rw [List.flatMap_cons] at parts
    have first : source.text = [] ++ piece.text ++ pieces.flatMap Piece.text := parts.symm
    have later : source.text = piece.text ++ pieces.flatMap Piece.text ++ [] := by
      rw [List.append_nil, parts]
    have ends := (moves.part _ _ _ first).stop
    simp only [Fragment.stop, width_nil, Nat.add_zero] at ends
    rw [place, place, List.map_cons, ih (moves.part _ _ _ later) rfl]
    simp only [relocate, ByteRange.relocate, moves.start, ends]

namespace OpenTag

theorem close?_relocate (tag : OpenTag) (text : List Char) :
    (tag.relocate move).close? text = tag.close? text := rfl

theorem carry_relocate (tag : OpenTag) (text : List Char) :
    (tag.relocate move).carry text = (tag.carry text).relocate move := by
  obtain ⟨start, form, quote, divides⟩ := tag
  cases form <;> rfl

end OpenTag

theorem OpenElement.after_relocate (settings : Settings) (tag : OpenTag) (selfClosing : Bool)
    (current : Option OpenElement) :
    after settings (tag.relocate move) selfClosing (current.map (relocate move)) =
      (after settings tag selfClosing current).map (relocate move) := by
  simp only [after, OpenTag.relocate]
  cases tag.form with
  | comment => rfl
  | declaration => rfl
  | element name closing =>
    cases current with
    | none =>
      dsimp only [Option.map_none]
      repeat' split
      all_goals rfl
    | some element =>
      simp only [Option.map_some, relocate]
      repeat' split
      all_goals rfl

namespace OpenMarkup

variable {reach : Nat}

section Steps

variable (settings : Settings) (markup : OpenMarkup) (place : Nat)

theorem stepTag_relocate (tag : OpenTag) (text : List Char) :
    (markup.relocate move reach).stepTag settings (tag.relocate move) text =
      (markup.stepTag settings tag text).relocate move reach := by
  simp only [stepTag, OpenTag.close?_relocate, OpenTag.carry_relocate]
  cases tag.close? text with
  | none => rfl
  | some parts =>
    simp only [relocate, OpenElement.after_relocate]
    rfl

theorem stepExcluded_relocate (reference : OpenReference) (outer : List OpenReference)
    (text : List Char) :
    (markup.relocate move reach).stepExcluded settings (reference.relocate move)
        (outer.map (·.relocate move)) text =
      (markup.stepExcluded settings reference outer text).relocate move reach := by
  have depth : (reference.relocate move).depth = reference.depth := rfl
  simp only [stepExcluded, depth]
  obtain ⟨taken, rest, reached⟩ := OpenReference.splitExcluded reference.depth text
  cases rest <;> rfl

theorem stepText_relocate (c : Char) (text : List Char) :
    (markup.relocate move reach).stepText c text =
      (markup.stepText c text).relocate move reach := by
  simp only [stepText, relocate, Option.isSome_map, Advance.relocate]

theorem withDepth_relocate (change : Nat → Nat) :
    (markup.relocate move reach).withDepth change =
      (markup.withDepth change).relocate move reach := by
  obtain ⟨tag, references, verbatim, last⟩ := markup
  cases references <;> rfl

theorem stepLess_relocate (text : List Char) :
    (markup.relocate move reach).stepLess settings (move place) text =
      (markup.stepLess settings place text).relocate move reach := by
  rw [stepLess, stepLess]
  cases TagForm.start? text with
  | none => exact stepText_relocate markup '<' text
  | some parts => rfl

theorem stepOpen_relocate (text : List Char) :
    (markup.relocate move reach).stepOpen settings (move place) text =
      (markup.stepOpen settings place text).relocate move reach := by
  rw [stepOpen, stepOpen]
  cases OpenReference.name? text with
  | none =>
    dsimp only
    rw [withDepth_relocate, stepText_relocate]
  | some parts => rfl

theorem stepClose_relocate (text : List Char) :
    (markup.relocate move reach).stepClose settings text =
      (markup.stepClose settings text).relocate move reach := by
  obtain ⟨tag, references, verbatim, last⟩ := markup
  cases references with
  | nil => exact stepText_relocate _ '}' text
  | cons reference outer =>
    simp only [stepClose, relocate, List.map_cons]
    have depth : (reference.relocate move).depth = reference.depth := rfl
    rw [depth]
    split
    · rfl
    · exact stepText_relocate (withDepth (· - 1) ⟨tag, reference :: outer, verbatim, last⟩) '}' text

theorem stepRunning_relocate (c : Char) (text : List Char) :
    (markup.relocate move reach).stepRunning settings (move place) c text =
      (markup.stepRunning settings place c text).relocate move reach := by
  simp only [stepRunning, stepLess_relocate, stepOpen_relocate, stepClose_relocate,
    stepText_relocate]
  split
  · rfl
  · split
    · rfl
    · split <;> rfl

/-- A step looks at no offset. -/
theorem step_relocate (c : Char) (text : List Char) :
    (markup.relocate move reach).step settings (move place) c text =
      (markup.step settings place c text).relocate move reach := by
  obtain ⟨tag, references, verbatim, last⟩ := markup
  cases tag with
  | some tag => exact stepTag_relocate settings ⟨some tag, references, verbatim, last⟩ tag _
  | none =>
    cases references with
    | nil => exact stepRunning_relocate settings ⟨.none, [], verbatim, last⟩ place c text
    | cons reference outer =>
      obtain ⟨start, name, depth, mode⟩ := reference
      cases mode with
      | excluded =>
        exact stepExcluded_relocate settings
          ⟨.none, ⟨start, name, depth, .excluded⟩ :: outer, verbatim, last⟩
          ⟨start, name, depth, .excluded⟩ outer (c :: text)
      | running =>
        exact stepRunning_relocate settings
          ⟨.none, ⟨start, name, depth, .running⟩ :: outer, verbatim, last⟩ place c text
      | target =>
        by_cases brace : c = '{' ∨ c = '}'
        · have running : (relocate move reach ⟨.none, ⟨start, name, depth, .running⟩ :: outer,
              verbatim, last⟩).stepRunning settings (move place) c text = _ :=
            stepRunning_relocate settings _ place c text
          simpa only [step, relocate, Option.map_none, List.map_cons, OpenReference.relocate, brace,
            if_true] using running
        · simp only [step, relocate, Option.map_none, List.map_cons, OpenReference.relocate, brace,
            if_false]
          rfl

end Steps

/-- Reading a text that stands elsewhere yields the same pieces. -/
theorem read_relocate (settings : Settings) (markup : OpenMarkup) {start place : Nat}
    {text : List Char} (moves : Fragment.MovesTo move ⟨start, text⟩ ⟨place, text⟩) :
    (markup.relocate move reach).read settings place text =
      ((markup.read settings start text).1,
        (markup.read settings start text).2.relocate move reach) := by
  fun_induction read settings markup start text generalizing place
  case case1 => rw [read]
  case case2 markup start c text advance pieces last rest ih =>
    have whole := append_step settings markup start c text
    have later := moves.part advance.taken advance.rest []
      (by rw [List.append_nil]; exact whole.symm)
    have here : move start = place := moves.start
    have step : (markup.relocate move reach).step settings place c text =
        advance.relocate move reach := by
      rw [← here]
      exact step_relocate settings markup start c text
    have behind := ih later
    rw [rest] at behind
    rw [read, step]
    change (advance.pieces ++ (read settings (advance.markup.relocate move reach)
      (place + width advance.taken) advance.rest).1,
      (read settings (advance.markup.relocate move reach)
        (place + width advance.taken) advance.rest).2) = _
    rw [behind]

/-- Reading a line that stands elsewhere yields the same spans there. -/
theorem readLine_relocate (settings : Settings) (markup : OpenMarkup) {source target : Fragment}
    (moves : source.MovesTo move target) :
    (markup.relocate move reach).readLine settings target =
      ((markup.readLine settings source).1.map (Span.relocate move),
        (markup.readLine settings source).2.relocate move target.stop) := by
  have parts : (Piece.join (markup.read settings source.start source.text).1).flatMap Piece.text =
      source.text := by
    rw [Piece.flatMap_text_join, flatMap_text_read]
  have moved : Fragment.MovesTo move ⟨source.start, source.text⟩ ⟨target.start, source.text⟩ :=
    ⟨rfl, moves.place⟩
  have spans := Span.map_relocate_place moves parts
  simp only [readLine, Span.ofPieces, moves.text, read_relocate settings markup moved, spans]
  rfl

/-- What is given up is the same markup, at the places to which it was moved. -/
theorem unfinished_relocate (edge : Edge) (markup : OpenMarkup) :
    (markup.relocate move (move markup.reach)).unfinished edge =
      (markup.unfinished edge).map (·.relocate move) := by
  obtain ⟨tag, references, verbatim, last⟩ := markup
  have inTag : (relocate move (move last) ⟨tag, references, verbatim, last⟩).unfinishedTag =
      (unfinishedTag ⟨tag, references, verbatim, last⟩).map (·.relocate move) := by
    cases tag <;> rfl
  have inReference :
      (relocate move (move last) ⟨tag, references, verbatim, last⟩).unfinishedReference =
        (unfinishedReference ⟨tag, references, verbatim, last⟩).map (·.relocate move) := by
    simp only [unfinishedReference, relocate, List.getLast?_map, Option.map_map]
    rfl
  have inElement :
      (relocate move (move last) ⟨tag, references, verbatim, last⟩).unfinishedElement edge =
        (unfinishedElement edge ⟨tag, references, verbatim, last⟩).map (·.relocate move) := by
    simp only [unfinishedElement]
    split
    · rfl
    · simp only [relocate, Option.map_map]
      rfl
  simp only [unfinished, inTag, inReference, inElement, List.map_append, Option.toList_map]

theorem closed_relocate (edge : Edge) (markup : OpenMarkup) :
    (markup.relocate move reach).closed edge = (markup.closed edge).relocate move reach := by
  simp only [closed, relocate]
  split <;> rfl

end OpenMarkup

/-! ### Relabelling -/

section Relabelling

variable {places : Set Nat}

/-- Both ends of the range are among the places. -/
def ByteRange.EndsIn (places : Set Nat) (range : ByteRange) : Prop :=
  range.start ∈ places ∧ range.stop ∈ places

namespace Span

private theorem max_mem {first second : Nat} (left : first ∈ places) (right : second ∈ places) :
    max first second ∈ places := by
  rcases max_choice first second with same | same <;> rwa [same]

private theorem min_mem {first second : Nat} (left : first ∈ places) (right : second ∈ places) :
    min first second ∈ places := by
  rcases min_choice first second with same | same <;> rwa [same]

/-- Relabelling makes no new ends. -/
theorem endsIn_of_mem_relabel {range : ByteRange} {source span : Span}
    (covered : range.EndsIn places) (ends : source.range.EndsIn places)
    (member : span ∈ relabel range source) : span.range.EndsIn places := by
  have start := max_mem ends.1 covered.1
  have stop := min_mem ends.2 covered.2
  rw [relabel] at member
  dsimp only at member
  split at member
  · obtain rfl := List.mem_singleton.mp member
    exact ends
  · rcases List.mem_append.mp member with before | after
    · split at before
      · obtain rfl := List.mem_singleton.mp before
        exact ⟨ends.1, start⟩
      · simp at before
    · rcases List.mem_cons.mp after with rfl | after
      · exact ⟨start, stop⟩
      · split at after
        · obtain rfl := List.mem_singleton.mp after
          exact ⟨stop, ends.2⟩
        · simp at after

/-- Relabelling depends on the order of the ends alone. -/
theorem relabel_relocate (ordered : StrictMonoOn move places) {range : ByteRange} {span : Span}
    (covered : range.EndsIn places) (ends : span.range.EndsIn places) :
    relabel (range.relocate move) (span.relocate move) =
      (relabel range span).map (relocate move) := by
  have start := ordered.monotoneOn.map_max ends.1 covered.1
  have stop := ordered.monotoneOn.map_min ends.2 covered.2
  have startMem := max_mem ends.1 covered.1
  have stopMem := min_mem ends.2 covered.2
  have apart := ordered.le_iff_le stopMem startMem
  have before := ordered.lt_iff_lt ends.1 startMem
  have after := ordered.lt_iff_lt stopMem ends.2
  simp only [relabel, relocate, ByteRange.relocate, ← start, ← stop, apart, before, after]
  split
  · rfl
  · split <;> split <;> rfl

theorem relabelAll_relocate (ordered : StrictMonoOn move places) {range : ByteRange}
    {spans : List Span} (covered : range.EndsIn places)
    (ends : ∀ span ∈ spans, span.range.EndsIn places) :
    relabelAll (range.relocate move) (spans.map (relocate move)) =
      (relabelAll range spans).map (relocate move) := by
  rw [relabelAll, List.flatMap_map, relabelAll, List.map_flatMap]
  exact List.flatMap_congr fun span member => relabel_relocate ordered covered (ends span member)

end Span

theorem Unfinished.relabel_relocate (ordered : StrictMonoOn move places)
    {unfinished : List Unfinished} {spans : List Span}
    (covered : ∀ item ∈ unfinished, item.range.EndsIn places)
    (ends : ∀ span ∈ spans, span.range.EndsIn places) :
    relabel (unfinished.map (relocate move)) (spans.map (Span.relocate move)) =
      (relabel unfinished spans).map (Span.relocate move) := by
  induction unfinished generalizing spans with
  | nil => rfl
  | cons item unfinished ih =>
    have here := covered item List.mem_cons_self
    have first := Span.relabelAll_relocate ordered here ends
    have inside : ∀ span ∈ Span.relabelAll item.range spans, span.range.EndsIn places := by
      intro span member
      obtain ⟨source, among, part⟩ := List.mem_flatMap.mp member
      exact Span.endsIn_of_mem_relabel here (ends source among) part
    have rest := ih (fun other later => covered other (List.mem_cons_of_mem _ later)) inside
    rw [← first] at rest
    exact rest

end Relabelling

end CommentProse
