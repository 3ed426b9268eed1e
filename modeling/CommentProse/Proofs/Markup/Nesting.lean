import CommentProse.Proofs.Markup.Openings
import CommentProse.Proofs.Markup.Tiling

/-! # How open markup is nested

References open inside one another, and a tag inside whatever is open: markup opens in running text
only. So every open reference but the innermost is read as running text, the references began one
after the other, and a tag began last of all (`OpenMarkup.Nested`). An open element may have begun
before, between or behind the references; the tag that it follows has been read to its end.
-/

namespace CommentProse

namespace OpenMarkup

/-- What is open when the text before `place` has been read. -/
structure Nested (place : Nat) (markup : OpenMarkup) : Prop where
  /-- The innermost reference comes first and began last. -/
  references : markup.references.Pairwise fun inner outer => outer.start < inner.start
  outer : ∀ reference ∈ markup.references.tail, reference.mode = .running
  tagInReferences : ∀ tag, markup.tag = some tag → ∀ reference ∈ markup.references,
    reference.mode = .running ∧ reference.start < tag.start
  tagInElement : ∀ tag element, markup.tag = some tag → markup.verbatim = some element →
    element.start < tag.start
  behind : markup.OpenedAs fun _ offset => offset < place

namespace Nested

variable {markup : OpenMarkup} {place next : Nat} {settings : Settings} {text : List Char}

theorem idle (reach place : Nat) : (OpenMarkup.idle reach).Nested place :=
  ⟨.nil, by simp [OpenMarkup.idle], nofun, nofun, openedAs_idle reach⟩

theorem mono (nested : markup.Nested place) (later : place ≤ next) : markup.Nested next where
  references := nested.references
  outer := nested.outer
  tagInReferences := nested.tagInReferences
  tagInElement := nested.tagInElement
  behind := nested.behind.mono fun _ _ before => Nat.lt_of_lt_of_le before later

theorem closed (nested : markup.Nested place) (edge : Edge) :
    (markup.closed edge).Nested place where
  references := .nil
  outer := by simp [OpenMarkup.closed]
  tagInReferences := nofun
  tagInElement := nofun
  behind := nested.behind.closed edge

theorem withReach (nested : markup.Nested place) (reach : Nat) :
    { markup with reach }.Nested place where
  references := nested.references
  outer := nested.outer
  tagInReferences := nested.tagInReferences
  tagInElement := nested.tagInElement
  behind := ⟨nested.behind.tag, nested.behind.tagElement, nested.behind.references,
    nested.behind.verbatim⟩

/-! ### The innermost reference -/

/-- The innermost reference is read on, in any mode. -/
theorem replace (nested : markup.Nested place) {reference changed : OpenReference}
    {outer : List OpenReference} (noTag : markup.tag = .none)
    (open_eq : markup.references = reference :: outer) (name : changed.name = reference.name)
    (start : changed.start = reference.start) :
    { markup with references := changed :: outer }.Nested place where
  references := by
    have pairwise := nested.references
    rw [open_eq, List.pairwise_cons] at pairwise
    refine List.pairwise_cons.mpr ⟨fun other member => ?_, pairwise.2⟩
    rw [start]
    exact pairwise.1 other member
  outer := by simpa [open_eq] using nested.outer
  tagInReferences := by simp [noTag]
  tagInElement := by simp [noTag]
  behind := nested.behind.replace open_eq name start

theorem withoutInnermost (nested : markup.Nested place) {reference : OpenReference}
    {outer : List OpenReference} (noTag : markup.tag = .none)
    (open_eq : markup.references = reference :: outer) :
    { markup with references := outer }.Nested place where
  references := by
    have pairwise := nested.references
    rw [open_eq] at pairwise
    exact (List.pairwise_cons.mp pairwise).2
  outer := by
    have running := nested.outer
    rw [open_eq, List.tail_cons] at running
    exact fun reference member => running reference (List.mem_of_mem_tail member)
  tagInReferences := by simp [noTag]
  tagInElement := by simp [noTag]
  behind := nested.behind.withoutInnermost open_eq

theorem withDepth (nested : markup.Nested place) (noTag : markup.tag = .none)
    (change : Nat → Nat) : (markup.withDepth change).Nested place := by
  rw [OpenMarkup.withDepth]
  split
  · exact nested
  · next open_eq => exact nested.replace noTag open_eq rfl rfl

/-! ### What opens -/

/-- A tag opens in running text. -/
theorem openTag (nested : markup.Nested place)
    (running : ∀ reference ∈ markup.references, reference.mode = .running) {tag : OpenTag}
    (start : tag.start = place) (later : place < next) :
    { markup with tag := some tag }.Nested next where
  references := nested.references
  outer := nested.outer
  tagInReferences := by
    rintro _ ⟨⟩ reference member
    rw [start]
    exact ⟨running reference member, nested.behind.references reference member⟩
  tagInElement := by
    rintro _ element ⟨⟩ verbatim
    rw [start]
    exact nested.behind.verbatim element verbatim
  behind := by
    have before := (nested.mono (Nat.le_of_lt later)).behind
    refine ⟨?_, ?_, before.references, before.verbatim⟩
    · rintro _ ⟨⟩
      exact start ▸ later
    · rintro _ _ ⟨⟩ _
      exact start ▸ later

/-- A reference opens in running text. -/
theorem openReference (nested : markup.Nested place) (noTag : markup.tag = .none)
    (running : ∀ reference ∈ markup.references, reference.mode = .running)
    {reference : OpenReference} (start : reference.start = place) (later : place < next) :
    { markup with references := reference :: markup.references }.Nested next where
  references := by
    refine List.pairwise_cons.mpr ⟨fun outer member => ?_, nested.references⟩
    rw [start]
    exact nested.behind.references outer member
  outer := running
  tagInReferences := by simp [noTag]
  tagInElement := by simp [noTag]
  behind := by
    have before := (nested.mono (Nat.le_of_lt later)).behind
    refine ⟨before.tag, before.tagElement, ?_, before.verbatim⟩
    intro other member
    rcases List.mem_cons.mp member with rfl | outside
    · exact start ▸ later
    · exact before.references other outside

/-! ### Steps and lines -/

/-- Reading on in a tag moves neither the tag nor what it stands in. A tag that opens an element
hands its place on. -/
theorem stepTag (nested : markup.Nested place) {tag : OpenTag} (open_eq : markup.tag = some tag) :
    (markup.stepTag settings tag text).markup.Nested place := by
  have behind := nested.behind.stepTag settings open_eq text
  cases closed : tag.close? text with
  | some parts =>
    simp only [OpenMarkup.stepTag, closed] at behind ⊢
    exact ⟨nested.references, nested.outer, by simp, by simp, behind⟩
  | none =>
    simp only [OpenMarkup.stepTag, closed] at behind ⊢
    have carried : (tag.carry text).start = tag.start := by
      rw [OpenTag.carry]
      split <;> rfl
    refine ⟨nested.references, nested.outer, ?_, ?_, behind⟩
    · rintro _ ⟨⟩
      rw [carried]
      exact nested.tagInReferences tag open_eq
    · rintro _ element ⟨⟩ verbatim
      rw [carried]
      exact nested.tagInElement tag element open_eq verbatim

theorem stepRunning (nested : markup.Nested place) (noTag : markup.tag = .none)
    (running : ∀ reference ∈ markup.references, reference.mode = .running) (later : place < next)
    (c : Char) : (markup.stepRunning settings place c text).markup.Nested next := by
  rw [OpenMarkup.stepRunning]
  split
  · rw [stepLess]
    split
    · exact nested.openTag running rfl later
    · exact nested.mono (Nat.le_of_lt later)
  · split
    · rw [stepOpen]
      split
      · exact nested.openReference noTag running rfl later
      · exact (nested.withDepth noTag _).mono (Nat.le_of_lt later)
    · split
      · rw [stepClose]
        split
        · exact nested.mono (Nat.le_of_lt later)
        · next open_eq =>
          split
          · exact (nested.withoutInnermost noTag open_eq).mono (Nat.le_of_lt later)
          · exact (nested.withDepth noTag (· - 1)).mono (Nat.le_of_lt later)
      · exact nested.mono (Nat.le_of_lt later)

/-- In running text all open references are read as running text. -/
theorem running_of_innermost (nested : markup.Nested place) {reference : OpenReference}
    {outer : List OpenReference} (open_eq : markup.references = reference :: outer)
    (innermost : reference.mode = .running) :
    ∀ other ∈ markup.references, other.mode = .running := by
  have tail := nested.outer
  rw [open_eq] at tail ⊢
  exact List.forall_mem_cons.mpr ⟨innermost, tail⟩

theorem step (nested : markup.Nested place) (later : place < next) (c : Char) :
    (markup.step settings place c text).markup.Nested next := by
  rw [OpenMarkup.step]
  split
  · next open_eq => exact (nested.stepTag open_eq).mono (Nat.le_of_lt later)
  · next reference outer noTag open_eq =>
    split
    · rw [stepExcluded]
      split
      · refine Nested.mono ?_ (Nat.le_of_lt later)
        exact nested.replace noTag open_eq rfl rfl
      · exact (nested.withoutInnermost noTag open_eq).mono (Nat.le_of_lt later)
    · split
      · have replaced : Nested place
            { markup with references := { reference with mode := .running } :: outer } :=
          nested.replace noTag open_eq rfl rfl
        exact replaced.stepRunning noTag (replaced.running_of_innermost rfl rfl) later c
      · refine Nested.mono ?_ (Nat.le_of_lt later)
        exact nested.replace noTag open_eq rfl rfl
    · next innermost =>
      exact nested.stepRunning noTag (nested.running_of_innermost open_eq innermost) later c
  · next noTag none_open =>
    exact nested.stepRunning noTag (by simp [none_open]) later c

theorem read (nested : markup.Nested place) :
    (markup.read settings place text).2.Nested (place + width text) := by
  fun_induction OpenMarkup.read settings markup place text with
  | case1 => exact nested
  | case2 markup place c text advance pieces last rest ih =>
    rw [rest] at ih
    have taken := Span.width_pos (step_taken_ne_nil settings markup place c text)
    have final := ih (nested.step (Nat.lt_add_of_pos_right taken) c)
    rwa [Nat.add_assoc, ← width_append, append_step] at final

theorem readLine {content : Fragment} (nested : markup.Nested content.start) :
    (markup.readLine settings content).2.Nested content.stop :=
  nested.read.withReach content.stop

end Nested

end OpenMarkup

end CommentProse
