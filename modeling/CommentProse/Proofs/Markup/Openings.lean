import CommentProse.Markup.Reading

/-! # Where open markup was opened

Open markup remembers the offset at which it was opened. `Construct.Opens` says of a text that it
begins with the opening of a construct; `OpenMarkup.OpenedAs` that everything open stands where it
may have been opened. A step opens markup only at its own place and only as the text there says, so
what holds of all openings in a text holds of all that is open behind it.
-/

namespace CommentProse

/-- The text begins with what opens the construct. -/
def Construct.Opens (text : List Char) (construct : Construct) : Prop :=
  match construct with
  | .tag label => ∃ behind form rest, text = '<' :: behind ∧
      TagForm.start? behind = some (form, rest) ∧ form.label = label
  | .reference name => ∃ behind chars rest, text = '{' :: '@' :: behind ∧
      OpenReference.name? ('@' :: behind) = some (chars, rest) ∧ String.ofList chars = name
  | .element name => ∃ behind rest, text = '<' :: behind ∧
      TagForm.start? behind = some (.element name false, rest)

theorem Construct.Opens.ne_nil {text : List Char} {construct : Construct}
    (opens : construct.Opens text) : text ≠ [] := by
  rintro rfl
  cases construct <;> simp [Opens] at opens

namespace OpenMarkup

/-- Whatever is open may have been opened at the offset that it remembers. A tag that is being read
may yet turn out to open an element. -/
structure OpenedAs (opened : Construct → Nat → Prop) (markup : OpenMarkup) : Prop where
  tag : ∀ tag, markup.tag = some tag → opened (.tag tag.form.label) tag.start
  tagElement : ∀ tag name, markup.tag = some tag → tag.form = .element name false →
    opened (.element name) tag.start
  references : ∀ reference ∈ markup.references, opened (.reference reference.name) reference.start
  verbatim : ∀ element, markup.verbatim = some element → opened (.element element.name) element.start

variable {opened : Construct → Nat → Prop} {markup : OpenMarkup}

/-- Nothing is open behind a line that ends at `reach`. -/
def idle (reach : Nat) : OpenMarkup := ⟨.none, [], .none, reach⟩

theorem openedAs_idle (reach : Nat) : (idle reach).OpenedAs opened :=
  ⟨by simp [idle], by simp [idle], by simp [idle], by simp [idle]⟩

namespace OpenedAs

theorem mono (openings : markup.OpenedAs opened) {possible : Construct → Nat → Prop}
    (weaker : ∀ construct offset, opened construct offset → possible construct offset) :
    markup.OpenedAs possible where
  tag := fun tag open_eq => weaker _ _ (openings.tag tag open_eq)
  tagElement := fun tag name open_eq form => weaker _ _ (openings.tagElement tag name open_eq form)
  references := fun reference member => weaker _ _ (openings.references reference member)
  verbatim := fun element open_eq => weaker _ _ (openings.verbatim element open_eq)

theorem closed (openings : markup.OpenedAs opened) (edge : Edge) :
    (markup.closed edge).OpenedAs opened := by
  refine ⟨by simp [OpenMarkup.closed], by simp [OpenMarkup.closed],
    by simp [OpenMarkup.closed], ?_⟩
  intro element open_eq
  simp only [OpenMarkup.closed] at open_eq
  split at open_eq
  · exact openings.verbatim element open_eq
  · simp at open_eq

/-- What is given up was opened at the start of its range, and the range reaches up to the last
line that was read. -/
theorem unfinished (openings : markup.OpenedAs opened) (edge : Edge) {item : Unfinished}
    (member : item ∈ markup.unfinished edge) :
    opened item.construct item.range.start ∧ item.range.stop = markup.reach := by
  simp only [OpenMarkup.unfinished, List.mem_append, Option.mem_toList] at member
  rcases member with (inTag | inReference) | inElement
  · obtain ⟨tag, open_eq, rfl⟩ := Option.map_eq_some_iff.mp inTag
    exact ⟨openings.tag tag open_eq, rfl⟩
  · obtain ⟨reference, last, rfl⟩ := Option.map_eq_some_iff.mp inReference
    exact ⟨openings.references reference (List.mem_of_getLast? last), rfl⟩
  · simp only [unfinishedElement] at inElement
    split at inElement
    · simp at inElement
    · obtain ⟨element, open_eq, rfl⟩ := Option.map_eq_some_iff.mp inElement
      exact ⟨openings.verbatim element open_eq, rfl⟩

/-- The innermost reference may change its depth and mode, but neither its name nor its place. -/
theorem replace (openings : markup.OpenedAs opened) {reference changed : OpenReference}
    {outer : List OpenReference} (open_eq : markup.references = reference :: outer)
    (name : changed.name = reference.name) (start : changed.start = reference.start) :
    { markup with references := changed :: outer }.OpenedAs opened := by
  refine ⟨openings.tag, openings.tagElement, ?_, openings.verbatim⟩
  intro other member
  rcases List.mem_cons.mp member with rfl | outside
  · rw [name, start]
    exact openings.references reference (by rw [open_eq]; exact List.mem_cons_self)
  · exact openings.references other (by rw [open_eq]; exact List.mem_cons_of_mem _ outside)

theorem withoutInnermost (openings : markup.OpenedAs opened) {reference : OpenReference}
    {outer : List OpenReference} (open_eq : markup.references = reference :: outer) :
    { markup with references := outer }.OpenedAs opened := by
  refine ⟨openings.tag, openings.tagElement, ?_, openings.verbatim⟩
  intro other member
  exact openings.references other (by rw [open_eq]; exact List.mem_cons_of_mem _ member)

theorem withDepth (openings : markup.OpenedAs opened) (change : Nat → Nat) :
    (markup.withDepth change).OpenedAs opened := by
  rw [OpenMarkup.withDepth]
  split
  · exact openings
  · next reference outer open_eq => exact openings.replace open_eq rfl rfl

/-- A tag that opens an element hands its own place on; every other tag keeps or drops the element
that was open before. -/
theorem opened_after {settings : Settings} {tag : OpenTag} {selfClosing : Bool}
    {current : Option OpenElement} {element : OpenElement}
    (byTag : ∀ name, tag.form = .element name false → opened (.element name) tag.start)
    (before : ∀ element, current = some element → opened (.element element.name) element.start)
    (after : OpenElement.after settings tag selfClosing current = some element) :
    opened (.element element.name) element.start := by
  simp only [OpenElement.after] at after
  cases form : tag.form with
  | comment => exact before element (by simpa [form] using after)
  | declaration => exact before element (by simpa [form] using after)
  | element name closing =>
    cases current with
    | none =>
      simp only [form] at after
      split at after
      · split at after
        · simp at after
        · next entered =>
          simp only [Bool.or_eq_true, not_or, Bool.not_eq_true] at entered
          cases after
          exact byTag name (by rw [form, entered.1])
      · simp at after
    | some already =>
      simp only [form] at after
      have same : element.name = already.name ∧ element.start = already.start := by
        repeat' split at after
        all_goals first | (cases after; exact ⟨rfl, rfl⟩) | simp at after
      rw [same.1, same.2]
      exact before already rfl

theorem stepTag (openings : markup.OpenedAs opened) (settings : Settings) {tag : OpenTag}
    (open_eq : markup.tag = some tag) (text : List Char) :
    (markup.stepTag settings tag text).markup.OpenedAs opened := by
  rw [OpenMarkup.stepTag]
  split
  · refine ⟨by simp, by simp, openings.references, ?_⟩
    intro element after
    exact opened_after (fun name => openings.tagElement tag name open_eq) openings.verbatim after
  · have carried : (tag.carry text).form = tag.form ∧ (tag.carry text).start = tag.start := by
      rw [OpenTag.carry]
      split <;> exact ⟨rfl, rfl⟩
    refine ⟨?_, ?_, openings.references, openings.verbatim⟩
    · rintro _ ⟨⟩
      rw [carried.1, carried.2]
      exact openings.tag tag open_eq
    · rintro _ name ⟨⟩ form
      rw [carried.2]
      exact openings.tagElement tag name open_eq (carried.1 ▸ form)

theorem stepLess (openings : markup.OpenedAs opened) (settings : Settings) {place : Nat}
    {text : List Char}
    (here : ∀ construct : Construct, construct.Opens ('<' :: text) → opened construct place) :
    (markup.stepLess settings place text).markup.OpenedAs opened := by
  rw [OpenMarkup.stepLess]
  split
  · next form taken rest read =>
    refine ⟨?_, ?_, openings.references, openings.verbatim⟩
    · rintro _ ⟨⟩
      exact here (.tag form.label) ⟨text, form, _, rfl, read, rfl⟩
    · rintro _ name ⟨⟩ element
      dsimp only at element
      exact here (.element name) ⟨text, _, rfl, by rw [read, element]⟩
  · exact openings

theorem stepOpen (openings : markup.OpenedAs opened) (settings : Settings) {place : Nat}
    {text : List Char}
    (here : ∀ construct : Construct, construct.Opens ('{' :: text) → opened construct place) :
    (markup.stepOpen settings place text).markup.OpenedAs opened := by
  rw [OpenMarkup.stepOpen]
  split
  · next name rest read =>
    refine ⟨openings.tag, openings.tagElement, ?_, openings.verbatim⟩
    intro reference member
    rcases List.mem_cons.mp member with rfl | outside
    · have whole := OpenReference.append_of_name? read
      rw [List.cons_append] at whole
      apply here (.reference (String.ofList name))
      exact ⟨name ++ rest, name, rest, by rw [whole], by rw [whole, read], rfl⟩
    · exact openings.references reference outside
  · exact openings.withDepth (· + 1)

theorem stepRunning (openings : markup.OpenedAs opened) (settings : Settings) {place : Nat}
    {c : Char} {text : List Char}
    (here : ∀ construct : Construct, construct.Opens (c :: text) → opened construct place) :
    (markup.stepRunning settings place c text).markup.OpenedAs opened := by
  rw [OpenMarkup.stepRunning]
  split
  · next less => exact openings.stepLess settings (less ▸ here)
  · split
    · next brace => exact openings.stepOpen settings (brace ▸ here)
    · split
      · rw [stepClose]
        split
        · exact openings
        · next reference outer open_eq =>
          split
          · exact openings.withoutInnermost open_eq
          · exact openings.withDepth (· - 1)
      · exact openings

/-- A step opens nothing but what the text opens at its place. -/
theorem step (openings : markup.OpenedAs opened) (settings : Settings) {place : Nat} {c : Char}
    {text : List Char}
    (here : ∀ construct : Construct, construct.Opens (c :: text) → opened construct place) :
    (markup.step settings place c text).markup.OpenedAs opened := by
  rw [OpenMarkup.step]
  split
  · next tag open_eq => exact openings.stepTag settings open_eq _
  · next reference outer _ open_eq =>
    split
    · rw [stepExcluded]
      split
      · exact openings.replace open_eq rfl rfl
      · exact openings.withoutInnermost open_eq
    · split
      · have replaced : OpenedAs opened
            { markup with references := { reference with mode := .running } :: outer } :=
          openings.replace open_eq rfl rfl
        exact replaced.stepRunning settings here
      · exact openings.replace open_eq rfl rfl
    · exact openings.stepRunning settings here
  · exact openings.stepRunning settings here

/-- Reading a text opens nothing but what the text opens somewhere. -/
theorem read (openings : markup.OpenedAs opened) (settings : Settings) {place : Nat}
    {text : List Char}
    (here : ∀ left right, text = left ++ right →
      ∀ construct : Construct, construct.Opens right → opened construct (place + width left)) :
    (markup.read settings place text).2.OpenedAs opened := by
  fun_induction OpenMarkup.read settings markup place text with
  | case1 => exact openings
  | case2 markup place c text advance pieces last rest ih =>
    rw [rest] at ih
    have whole := append_step settings markup place c text
    apply ih (openings.step settings (here [] _ rfl))
    intro left right parts
    rw [Nat.add_assoc, ← width_append]
    apply here (advance.taken ++ left) right
    rw [← whole, List.append_assoc, ← parts]

theorem readLine {content : Fragment} (openings : markup.OpenedAs opened) (settings : Settings)
    (here : ∀ left right, content.text = left ++ right →
      ∀ construct : Construct, construct.Opens right →
        opened construct (content.start + width left)) :
    (markup.readLine settings content).2.OpenedAs opened := by
  have last := openings.read settings here
  exact ⟨last.tag, last.tagElement, last.references, last.verbatim⟩

end OpenedAs

end OpenMarkup

end CommentProse
