import CommentProse.Proofs.Markup.Breaking
import CommentProse.Proofs.Unfinished

/-! # Readings that differ in what divides

Settings that agree on inline tags and verbatim elements read every text alike: the pieces have the
same texts and the same roles, and the markup that is open differs at most in whether the tag that
is being read divides prose (`OpenMarkup.Alike.read`). Joining and relabelling cut such readings at
different places, so spans are compared byte by byte: `Span.KindAt` does not see how bytes are
gathered in spans (`Span.kindAt_ofPieces_iff`), nor does making markup of a range
(`Span.kindAt_relabelAll_iff`).
-/

namespace CommentProse

namespace Settings

/-- The settings agree on what is markup. -/
structure SameMarkup (first second : Settings) : Prop where
  policies : ∀ tag, first.bodyPolicy tag = second.bodyPolicy tag
  verbatim : ∀ name, first.isVerbatimElement name = second.isVerbatimElement name

/-- Whatever divides prose under the first settings does so under the second. -/
structure DividesLess (first second : Settings) : Prop where
  elements : ∀ name, first.isBlockElement name = true → second.isBlockElement name = true
  references : first.referencesDivide = true → second.referencesDivide = true
  blankLines : first.blankLinesDivide = true → second.blankLinesDivide = true

theorem SameMarkup.symm {first second : Settings} (same : first.SameMarkup second) :
    second.SameMarkup first :=
  ⟨fun tag => (same.policies tag).symm, fun name => (same.verbatim name).symm⟩

end Settings

/-! ### Steps -/

/-- The pieces differ at most in whether they divide prose. -/
structure Piece.Alike (first second : Settings) (piece other : Piece) : Prop where
  role : other.role = piece.role
  text : other.text = piece.text
  divides : first.DividesLess second → piece.divides = true → other.divides = true

/-- The tags differ at most in whether they divide prose. -/
structure OpenTag.Alike (first second : Settings) (tag other : OpenTag) : Prop where
  start : other.start = tag.start
  form : other.form = tag.form
  quote : other.quote = tag.quote
  divides : first.DividesLess second → tag.divides = true → other.divides = true

/-- What is open differs at most in whether the tag that is being read divides prose. -/
structure OpenMarkup.Alike (first second : Settings) (markup other : OpenMarkup) : Prop where
  tag : Option.Rel (OpenTag.Alike first second) markup.tag other.tag
  references : other.references = markup.references
  verbatim : other.verbatim = markup.verbatim
  reach : other.reach = markup.reach

/-- The steps take the same text and differ at most in what divides prose. -/
structure Advance.Alike (first second : Settings) (advance other : Advance) : Prop where
  pieces : List.Forall₂ (Piece.Alike first second) advance.pieces other.pieces
  markup : advance.markup.Alike first second other.markup
  rest : other.rest = advance.rest

variable {first second : Settings}

theorem Piece.Alike.refl (piece : Piece) : piece.Alike first second piece := ⟨rfl, rfl, fun _ => id⟩

/-- Text that divides under neither settings. -/
theorem Piece.alike_of_divides (role : Role) (text : List Char) {divides other : Bool}
    (less : first.DividesLess second → divides = true → other = true) :
    Piece.Alike first second ⟨role, divides, text⟩ ⟨role, other, text⟩ := ⟨rfl, rfl, less⟩

theorem Piece.flatMap_text_of_alike {pieces others : List Piece}
    (alike : List.Forall₂ (Piece.Alike first second) pieces others) :
    others.flatMap Piece.text = pieces.flatMap Piece.text := by
  induction alike with
  | nil => rfl
  | cons here _ ih => rw [List.flatMap_cons, List.flatMap_cons, here.text, ih]

namespace OpenTag.Alike

variable {tag other : OpenTag}

theorem close?_eq (alike : tag.Alike first second other) (text : List Char) :
    other.close? text = tag.close? text := by
  rw [close?, close?, alike.form, alike.quote]

theorem carry (alike : tag.Alike first second other) (text : List Char) :
    (tag.carry text).Alike first second (other.carry text) := by
  rw [OpenTag.carry, OpenTag.carry, alike.form]
  split
  · exact alike
  · exact ⟨alike.start, rfl, by rw [alike.quote], alike.divides⟩

theorem after_eq (alike : tag.Alike first second other) (same : first.SameMarkup second)
    (selfClosing : Bool) (current : Option OpenElement) :
    OpenElement.after second other selfClosing current =
      OpenElement.after first tag selfClosing current := by
  simp only [OpenElement.after, alike.form, alike.start, same.verbatim]

end OpenTag.Alike

theorem TagForm.divides_of_less (less : first.DividesLess second) {form : TagForm}
    (divides : form.divides first = true) : form.divides second = true := by
  cases form with
  | comment => cases divides
  | declaration => cases divides
  | element name closing => exact less.elements name divides

namespace OpenMarkup.Alike

variable {markup other : OpenMarkup}

theorem refl (markup : OpenMarkup) : markup.Alike first second markup := by
  refine ⟨?_, rfl, rfl, rfl⟩
  cases markup.tag with
  | none => exact .none
  | some tag => exact .some ⟨rfl, rfl, rfl, fun _ => id⟩

/-- The parts that do not depend on what divides. -/
theorem with_references (alike : markup.Alike first second other)
    (references : List OpenReference) :
    { markup with references }.Alike first second { other with references } :=
  ⟨alike.tag, rfl, alike.verbatim, alike.reach⟩

theorem withDepth (alike : markup.Alike first second other) (change : Nat → Nat) :
    (markup.withDepth change).Alike first second (other.withDepth change) := by
  rw [OpenMarkup.withDepth, OpenMarkup.withDepth, alike.references]
  split
  · exact alike
  · exact alike.with_references _

theorem stepText (alike : markup.Alike first second other) (c : Char) (text : List Char) :
    (markup.stepText c text).Alike first second (other.stepText c text) := by
  rw [OpenMarkup.stepText, OpenMarkup.stepText, alike.verbatim]
  exact ⟨.cons (.refl _) .nil, alike, rfl⟩

theorem stepTag (alike : markup.Alike first second other) (same : first.SameMarkup second)
    {tag otherTag : OpenTag} (tags : tag.Alike first second otherTag) (text : List Char) :
    (markup.stepTag first tag text).Alike first second (other.stepTag second otherTag text) := by
  rw [OpenMarkup.stepTag, OpenMarkup.stepTag, tags.close?_eq]
  split
  · rw [tags.after_eq same, alike.verbatim]
    exact ⟨.cons (Piece.alike_of_divides _ _ tags.divides) .nil,
      ⟨.none, alike.references, rfl, alike.reach⟩, rfl⟩
  · exact ⟨.cons (Piece.alike_of_divides _ _ tags.divides) .nil,
      ⟨.some (tags.carry text), alike.references, alike.verbatim, alike.reach⟩, rfl⟩

theorem stepExcluded (alike : markup.Alike first second other) (reference : OpenReference)
    (outer : List OpenReference) (text : List Char) :
    (markup.stepExcluded first reference outer text).Alike first second
      (other.stepExcluded second reference outer text) := by
  rw [OpenMarkup.stepExcluded, OpenMarkup.stepExcluded]
  split
  · exact ⟨.cons (.refl _) .nil, alike.with_references _, rfl⟩
  · exact ⟨.cons (.refl _) (.cons (Piece.alike_of_divides _ _ (·.references)) .nil),
      alike.with_references _, rfl⟩

theorem stepTarget (alike : markup.Alike first second other) (reference : OpenReference)
    (outer : List OpenReference) (text : List Char) :
    (markup.stepTarget reference outer text).Alike first second
      (other.stepTarget reference outer text) :=
  ⟨.cons (.refl _) .nil, alike.with_references _, rfl⟩

theorem stepLess (alike : markup.Alike first second other) (place : Nat) (text : List Char) :
    (markup.stepLess first place text).Alike first second (other.stepLess second place text) := by
  rw [OpenMarkup.stepLess, OpenMarkup.stepLess]
  split
  · exact ⟨.cons (Piece.alike_of_divides _ _ fun less => TagForm.divides_of_less less) .nil,
      ⟨.some ⟨rfl, rfl, rfl, fun less => TagForm.divides_of_less less⟩, alike.references,
        alike.verbatim, alike.reach⟩, rfl⟩
  · exact alike.stepText '<' text

theorem stepOpen (alike : markup.Alike first second other) (same : first.SameMarkup second)
    (place : Nat) (text : List Char) :
    (markup.stepOpen first place text).Alike first second (other.stepOpen second place text) := by
  rw [OpenMarkup.stepOpen, OpenMarkup.stepOpen]
  split
  · simp only [bodyMode, ← same.policies, alike.references]
    exact ⟨.cons (Piece.alike_of_divides _ _ (·.references)) (.cons (.refl _) .nil),
      alike.with_references _, rfl⟩
  · exact (alike.withDepth _).stepText _ text

theorem stepClose (alike : markup.Alike first second other) (text : List Char) :
    (markup.stepClose first text).Alike first second (other.stepClose second text) := by
  rw [OpenMarkup.stepClose, OpenMarkup.stepClose, alike.references]
  split
  · exact alike.stepText _ text
  · split
    · exact ⟨.cons (Piece.alike_of_divides _ _ (·.references)) .nil, alike.with_references _, rfl⟩
    · exact (alike.withDepth _).stepText _ text

theorem stepRunning (alike : markup.Alike first second other) (same : first.SameMarkup second)
    (place : Nat) (c : Char) (text : List Char) :
    (markup.stepRunning first place c text).Alike first second
      (other.stepRunning second place c text) := by
  rw [OpenMarkup.stepRunning, OpenMarkup.stepRunning]
  split
  · exact alike.stepLess place text
  · split
    · exact alike.stepOpen same place text
    · split
      · exact alike.stepClose text
      · exact alike.stepText c text

/-- One step takes the same text with the same roles. -/
theorem step (alike : markup.Alike first second other) (same : first.SameMarkup second)
    (place : Nat) (c : Char) (text : List Char) :
    (markup.step first place c text).Alike first second (other.step second place c text) := by
  obtain ⟨tag, _, _, _⟩ := markup
  obtain ⟨otherTag, references, verbatim, reach⟩ := other
  obtain ⟨tags, rfl, rfl, rfl⟩ := alike
  have alike (references : List OpenReference) : OpenMarkup.Alike first second
      ⟨tag, references, verbatim, reach⟩ ⟨otherTag, references, verbatim, reach⟩ :=
    ⟨tags, rfl, rfl, rfl⟩
  rw [OpenMarkup.step, OpenMarkup.step]
  cases tags with
  | some tags => exact (alike references).stepTag same tags _
  | none =>
    cases references with
    | nil => exact (alike []).stepRunning same place c text
    | cons reference outer =>
      dsimp only
      split
      · exact (alike _).stepExcluded _ _ _
      · split
        · exact (alike _).stepRunning same place c text
        · exact (alike _).stepTarget _ _ _
      · exact (alike _).stepRunning same place c text

/-- A text is read to the same pieces, but for what divides. -/
theorem read (alike : markup.Alike first second other) (same : first.SameMarkup second)
    (place : Nat) (text : List Char) :
    List.Forall₂ (Piece.Alike first second) (markup.read first place text).1
        (other.read second place text).1 ∧
      (markup.read first place text).2.Alike first second (other.read second place text).2 := by
  fun_induction OpenMarkup.read first markup place text generalizing other
  case case1 =>
    rw [OpenMarkup.read]
    exact ⟨.nil, alike⟩
  case case2 markup place c text advance pieces last rest ih =>
    have step := alike.step same place c text
    have taken : (other.step second place c text).taken = advance.taken :=
      Piece.flatMap_text_of_alike step.pieces
    obtain ⟨later, final⟩ := ih step.markup
    rw [rest] at later final
    rw [read_cons]
    dsimp only
    rw [step.rest, taken]
    exact ⟨List.rel_append step.pieces later, final⟩

end OpenMarkup.Alike

/-! ### The kinds of bytes -/

namespace Span

/-- A span with this role, which divides prose or not, has the byte. -/
def KindAt (spans : List Span) (offset : Nat) (role : Role) (divides : Bool) : Prop :=
  ∃ span ∈ spans, offset ∈ span.range ∧ span.role = role ∧ span.divides = divides

variable {offset start : Nat} {role : Role} {divides : Bool} {spans others : List Span}

theorem kindAt_cons_iff {span : Span} : KindAt (span :: spans) offset role divides ↔
    offset ∈ span.range ∧ span.role = role ∧ span.divides = divides ∨
      KindAt spans offset role divides := by
  simp [KindAt]

theorem kindAt_append_iff : KindAt (spans ++ others) offset role divides ↔
    KindAt spans offset role divides ∨ KindAt others offset role divides := by
  simp only [KindAt, List.mem_append, or_and_right, exists_or]

theorem kindAt_flatMap_iff {α : Type} {items : List α} {parts : α → List Span} :
    KindAt (items.flatMap parts) offset role divides ↔
      ∃ item ∈ items, KindAt (parts item) offset role divides := by
  simp only [KindAt, List.mem_flatMap]
  constructor
  · rintro ⟨span, ⟨item, among, member⟩, here⟩
    exact ⟨item, among, span, member, here⟩
  · rintro ⟨item, among, span, member, here⟩
    exact ⟨span, ⟨item, among, member⟩, here⟩

/-- Putting a piece before others gathers bytes of equal kind only. -/
theorem kindAt_place_cons_iff (piece : Piece) (pieces : List Piece) :
    KindAt (place start (Piece.cons piece pieces)) offset role divides ↔
      KindAt (place start (piece :: pieces)) offset role divides := by
  cases pieces with
  | nil => rfl
  | cons next pieces =>
    rw [Piece.cons]
    split
    · next same =>
      simp only [place, kindAt_cons_iff, width_append, ← Nat.add_assoc, ← same.1, ← same.2,
        ← or_assoc, ← or_and_right, ByteRange.mem_iff]
      refine or_congr_left (and_congr_left fun _ => ?_)
      omega
    · rfl

/-- Joining pieces does not change the kind of any byte. -/
theorem kindAt_ofPieces_iff (pieces : List Piece) :
    KindAt (ofPieces start pieces) offset role divides ↔
      KindAt (place start pieces) offset role divides := by
  rw [ofPieces]
  induction pieces generalizing start with
  | nil => rfl
  | cons piece pieces ih =>
    rw [Piece.join_cons]
    split
    · next empty =>
      rw [ih, place, kindAt_cons_iff, empty]
      simp [ByteRange.mem_iff]
    · rw [kindAt_place_cons_iff, place, place, kindAt_cons_iff, kindAt_cons_iff, ih]

/-- Making markup of a range changes the role of the bytes in the range, and nothing else. -/
theorem kindAt_relabel_iff {range : ByteRange} {span : Span} :
    KindAt (relabel range span) offset role divides ↔
      offset ∈ span.range ∧ (if offset ∈ range then .markup else span.role) = role ∧
        span.divides = divides := by
  obtain ⟨own, ⟨start, stop⟩, flag⟩ := span
  rw [relabel]
  dsimp only
  split
  · next kept =>
    rw [KindAt]
    simp only [List.mem_singleton, exists_eq_left]
    refine and_congr_right fun inside => and_congr_left fun _ => ?_
    rw [ByteRange.mem_iff] at inside
    split
    · next covered =>
      rw [ByteRange.mem_iff] at covered
      rw [kept.resolve_left (by dsimp only at inside; omega)]
    · rfl
  · next cut =>
    have side (within : ByteRange) : KindAt (if within.start < within.stop then
        [⟨own, within, flag⟩] else []) offset role divides ↔
          offset ∈ within ∧ own = role ∧ flag = divides := by
      split
      · simp [KindAt]
      · simp only [KindAt, List.not_mem_nil, false_and, exists_false, false_iff, ByteRange.mem_iff]
        omega
    have before := side ⟨start, max start range.start⟩
    have after := side ⟨min stop range.stop, stop⟩
    dsimp only at before after
    rw [kindAt_append_iff, kindAt_cons_iff, before, after]
    simp only [not_or, Nat.not_le, ByteRange.mem_iff] at cut ⊢
    by_cases covered : range.start ≤ offset ∧ offset < range.stop
    · have notBefore : ¬(start ≤ offset ∧ offset < max start range.start) := by omega
      have notAfter : ¬(min stop range.stop ≤ offset ∧ offset < stop) := by omega
      have between : max start range.start ≤ offset ∧ offset < min stop range.stop ↔
          start ≤ offset ∧ offset < stop := by omega
      simp only [if_pos covered, notBefore, notAfter, between, false_and, or_false, false_or]
    · have notBetween : ¬(max start range.start ≤ offset ∧ offset < min stop range.stop) := by omega
      have sides : start ≤ offset ∧ offset < max start range.start ∨
          min stop range.stop ≤ offset ∧ offset < stop ↔ start ≤ offset ∧ offset < stop := by omega
      simp only [if_neg covered, notBetween, false_and, false_or, ← or_and_right, sides]

theorem kindAt_relabelAll_iff {range : ByteRange} :
    KindAt (relabelAll range spans) offset role divides ↔
      ∃ former, KindAt spans offset former divides ∧
        (if offset ∈ range then .markup else former) = role := by
  rw [relabelAll, kindAt_flatMap_iff]
  simp only [kindAt_relabel_iff]
  constructor
  · rintro ⟨span, member, inside, same, rfl⟩
    exact ⟨span.role, ⟨span, member, inside, rfl, rfl⟩, same⟩
  · rintro ⟨_, ⟨span, member, inside, rfl, rfl⟩, same⟩
    exact ⟨span, member, inside, same, rfl⟩

/-! ### Lines -/

/-- Each byte of the spans has the same role among the others, and divides there if it does here and
the settings are such. -/
def Refine (first second : Settings) (spans others : List Span) : Prop :=
  ∀ offset role divides, KindAt spans offset role divides →
    ∃ other, KindAt others offset role other ∧
      (first.DividesLess second → divides = true → other = true)

namespace Refine

theorem refl (spans : List Span) : Refine first second spans spans :=
  fun _ _ divides here => ⟨divides, here, fun _ => id⟩

theorem append {more othersMore : List Span} (front : Refine first second spans others)
    (back : Refine first second more othersMore) :
    Refine first second (spans ++ more) (others ++ othersMore) := by
  intro offset role divides here
  rcases kindAt_append_iff.mp here with here | here
  · obtain ⟨other, there, less⟩ := front offset role divides here
    exact ⟨other, kindAt_append_iff.mpr (.inl there), less⟩
  · obtain ⟨other, there, less⟩ := back offset role divides here
    exact ⟨other, kindAt_append_iff.mpr (.inr there), less⟩

theorem relabelAll (finer : Refine first second spans others) (range : ByteRange) :
    Refine first second (Span.relabelAll range spans) (Span.relabelAll range others) := by
  intro offset role divides here
  obtain ⟨former, before, same⟩ := kindAt_relabelAll_iff.mp here
  obtain ⟨other, there, less⟩ := finer offset former divides before
  exact ⟨other, kindAt_relabelAll_iff.mpr ⟨former, there, same⟩, less⟩

theorem relabel (finer : Refine first second spans others) (unfinished : List Unfinished) :
    Refine first second (Unfinished.relabel unfinished spans)
      (Unfinished.relabel unfinished others) := by
  induction unfinished generalizing spans others with
  | nil => exact finer
  | cons item unfinished ih => exact ih (finer.relabelAll item.range)

theorem place {pieces otherPieces : List Piece} (start : Nat)
    (alike : List.Forall₂ (Piece.Alike first second) pieces otherPieces) :
    Refine first second (Span.place start pieces) (Span.place start otherPieces) := by
  induction alike generalizing start with
  | nil => exact .refl _
  | cons here rest ih =>
    rw [Span.place, Span.place, here.text, here.role]
    intro offset role divides reached
    rcases kindAt_cons_iff.mp reached with ⟨inside, rfl, rfl⟩ | later
    · exact ⟨_, kindAt_cons_iff.mpr (.inl ⟨inside, rfl, rfl⟩), here.divides⟩
    · obtain ⟨other, there, less⟩ := ih _ offset role divides later
      exact ⟨other, kindAt_cons_iff.mpr (.inr there), less⟩

theorem ofPieces {pieces otherPieces : List Piece} (start : Nat)
    (alike : List.Forall₂ (Piece.Alike first second) pieces otherPieces) :
    Refine first second (Span.ofPieces start pieces) (Span.ofPieces start otherPieces) := by
  intro offset role divides here
  rw [kindAt_ofPieces_iff] at here
  obtain ⟨other, there, less⟩ := place start alike offset role divides here
  exact ⟨other, (kindAt_ofPieces_iff _).mpr there, less⟩

end Refine

end Span

namespace OpenMarkup.Alike

variable {markup other : OpenMarkup}

theorem readLine (alike : markup.Alike first second other) (same : first.SameMarkup second)
    (content : Fragment) :
    Span.Refine first second (markup.readLine first content).1 (other.readLine second content).1 ∧
      (markup.readLine first content).2.Alike first second (other.readLine second content).2 := by
  obtain ⟨pieces, final⟩ := alike.read same content.start content.text
  exact ⟨.ofPieces _ pieces, final.tag, final.references, final.verbatim, rfl⟩

theorem readContent (alike : markup.Alike first second other) (same : first.SameMarkup second)
    (line : CommentLine) :
    Span.Refine first second (markup.readContent first line).1 (other.readContent second line).1 ∧
      (markup.readContent first line).2.Alike first second (other.readContent second line).2 := by
  rw [OpenMarkup.readContent, OpenMarkup.readContent]
  split
  · obtain ⟨spans, final⟩ := alike.readLine same _
    exact ⟨(Span.Refine.refl _).append spans, final⟩
  · exact alike.readLine same _

/-- The same markup is given up. -/
theorem unfinished_eq (alike : markup.Alike first second other) (edge : Edge) :
    other.unfinished edge = markup.unfinished edge := by
  obtain ⟨tag, _, _, _⟩ := markup
  obtain ⟨otherTag, references, verbatim, reach⟩ := other
  obtain ⟨tags, rfl, rfl, rfl⟩ := alike
  cases tags with
  | none => rfl
  | some tags =>
    simp only [unfinished, unfinishedTag, Option.map_some, tags.form, tags.start]
    rfl

theorem closed (alike : markup.Alike first second other) (edge : Edge) :
    (markup.closed edge).Alike first second (other.closed edge) :=
  ⟨.none, rfl, by simp only [OpenMarkup.closed, alike.verbatim], alike.reach⟩

theorem openAt (alike : markup.Alike first second other) (line : CommentLine) :
    (markup.openAt line).Alike first second (other.openAt line) := by
  rw [OpenMarkup.openAt, OpenMarkup.openAt]
  cases line.edge? with
  | none => exact alike
  | some edge => exact alike.closed edge

theorem unfinishedBefore_eq (alike : markup.Alike first second other) (line : CommentLine) :
    other.unfinishedBefore line = markup.unfinishedBefore line := by
  rw [unfinishedBefore, unfinishedBefore]
  cases line.edge? with
  | none => rfl
  | some edge => exact alike.unfinished_eq edge

/-- Lines are read with the same roles, and the same markup is given up. -/
theorem readLines (alike : markup.Alike first second other) (same : first.SameMarkup second)
    (lines : List CommentLine) :
    List.Forall₂ (Span.Refine first second) (markup.readLines first lines).1
        (other.readLines second lines).1 ∧
      (other.readLines second lines).2 = (markup.readLines first lines).2 := by
  induction lines generalizing markup other with
  | nil => exact ⟨.nil, alike.unfinished_eq .commentEnd⟩
  | cons line lines ih =>
    obtain ⟨spans, final⟩ := (alike.openAt line).readContent same line
    obtain ⟨later, unfinished⟩ := ih final
    refine ⟨.cons spans later, ?_⟩
    rw [OpenMarkup.readLines, OpenMarkup.readLines]
    dsimp only
    rw [unfinished, alike.unfinishedBefore_eq]

end OpenMarkup.Alike

end CommentProse
