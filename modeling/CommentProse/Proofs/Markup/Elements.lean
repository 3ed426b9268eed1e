import CommentProse.Proofs.Markup.Passing

/-! # Matching tags by name and count

An element whose content is no prose is entered by a tag that opens one, and left by the first tag
closing one of the same name that makes up for all tags of that name since, the entering tag
included. `VerbatimElement.behind` keeps the tags since an element was entered and counts them
(`VerbatimElement.behind_eq_some_iff`); reading keeps a name and a depth, which is what the counts
come to (`VerbatimElement.after_opened`). So a text that is made of complete tags and of characters
that open nothing is read tag by tag (`OpenMarkup.Follows.exists_passes`).
-/

namespace CommentProse

/-! ### Elements by name and count -/

/-- A tag that was read to its end. -/
structure HtmlTag where
  /-- The offset of its `<`. -/
  start : Nat
  form : TagForm
  selfClosing : Bool
deriving DecidableEq, Repr

namespace HtmlTag

/-- The tag opens an element of this name that has content. -/
def opens (name : String) (tag : HtmlTag) : Bool :=
  tag.form = .element name false && !tag.selfClosing

def closes (name : String) (tag : HtmlTag) : Bool := tag.form = .element name true

theorem opens_of_closes {name : String} {tag : HtmlTag} (closes : tag.closes name = true) :
    tag.opens name = false := by
  simp only [HtmlTag.closes, decide_eq_true_eq] at closes
  simp [opens, closes]

theorem closes_of_opens {name : String} {tag : HtmlTag} (opens : tag.opens name = true) :
    tag.closes name = false := by
  rw [← Bool.not_eq_true]
  intro closes
  rw [opens_of_closes closes] at opens
  cases opens

/-- As many elements of this name are closed as are opened. -/
def Balanced (name : String) (tags : List HtmlTag) : Prop :=
  tags.countP (opens name) = tags.countP (closes name)

instance (name : String) (tags : List HtmlTag) : Decidable (Balanced name tags) :=
  inferInstanceAs (Decidable (_ = _))

/-- The name of the verbatim element that the tag enters where none is open. -/
def entered? (settings : Settings) (tag : HtmlTag) : Option String :=
  match tag.form with
  | .element name _ =>
    if tag.opens name ∧ settings.isVerbatimElement name then some name else none
  | _ => none

theorem entered?_eq_some_iff {settings : Settings} {tag : HtmlTag} {name : String} :
    tag.entered? settings = some name ↔
      tag.opens name = true ∧ settings.isVerbatimElement name = true := by
  obtain ⟨start, form, selfClosing⟩ := tag
  cases form with
  | comment => simp [entered?, opens]
  | declaration => simp [entered?, opens]
  | element other closing =>
    simp only [entered?, opens, Bool.and_eq_true, decide_eq_true_eq, TagForm.element.injEq,
      true_and, Option.ite_none_right_eq_some, Option.some.injEq]
    constructor
    · rintro ⟨conditions, rfl⟩
      exact ⟨⟨⟨rfl, conditions.1.1⟩, conditions.1.2⟩, conditions.2⟩
    · rintro ⟨⟨⟨rfl, closing⟩, content⟩, verbatim⟩
      exact ⟨⟨⟨closing, content⟩, verbatim⟩, rfl⟩

end HtmlTag

/-- A verbatim element that is open. -/
structure VerbatimElement where
  name : String
  /-- The tag that entered the element. -/
  entry : HtmlTag
  /-- The tags behind it. -/
  since : List HtmlTag
deriving DecidableEq, Repr

namespace VerbatimElement

/-- The tags since the element was entered, the entering tag included. -/
def tags (element : VerbatimElement) : List HtmlTag := element.entry :: element.since

/-- The element with one more tag behind it. -/
def through (element : VerbatimElement) (tag : HtmlTag) : VerbatimElement :=
  { element with since := element.since ++ [tag] }

/-- The element that is open behind one more tag. While one is open, the only tag that counts is
the one that closes it. -/
def next (settings : Settings) (current : Option VerbatimElement) (tag : HtmlTag) :
    Option VerbatimElement :=
  match current with
  | none => (tag.entered? settings).map fun name => ⟨name, tag, []⟩
  | some element =>
    if tag.closes element.name ∧ HtmlTag.Balanced element.name (element.through tag).tags then none
    else some (element.through tag)

/-- The element that is open behind tags. -/
def behind (settings : Settings) (tags : List HtmlTag) : Option VerbatimElement :=
  tags.foldl (next settings) none

theorem behind_concat (settings : Settings) (tags : List HtmlTag) (tag : HtmlTag) :
    behind settings (tags ++ [tag]) = next settings (behind settings tags) tag := by
  rw [behind, List.foldl_append]
  rfl

/-- No tag since the element was entered closes it. -/
def IsUnclosed (element : VerbatimElement) : Prop :=
  ∀ front closing, front ++ [closing] <+: element.since → closing.closes element.name = true →
    ¬HtmlTag.Balanced element.name (element.entry :: (front ++ [closing]))

/-- An element is open behind tags exactly if one of them opens a verbatim element, with none open
before it, and none of the tags since then closes one of the same name such that as many of that
name are closed as are opened. -/
theorem behind_eq_some_iff {settings : Settings} {tags : List HtmlTag}
    {element : VerbatimElement} :
    behind settings tags = some element ↔ ∃ before, tags = before ++ element.tags ∧
      behind settings before = none ∧ element.entry.opens element.name = true ∧
      settings.isVerbatimElement element.name = true ∧ element.IsUnclosed := by
  constructor
  · intro open_
    induction tags using List.reverseRecOn generalizing element with
    | nil => cases open_
    | append_singleton tags tag ih =>
      rw [behind_concat] at open_
      cases current : behind settings tags with
      | none =>
        rw [current] at open_
        obtain ⟨name, entered, rfl⟩ := Option.map_eq_some_iff.mp open_
        obtain ⟨opens, verbatim⟩ := HtmlTag.entered?_eq_some_iff.mp entered
        refine ⟨tags, rfl, current, opens, verbatim, ?_⟩
        intro front closing isFront
        simp at isFront
      | some earlier =>
        obtain ⟨before, rfl, none_open, opens, verbatim, unclosed⟩ := ih current
        rw [current, next] at open_
        split at open_
        · cases open_
        · next stays =>
          cases open_
          refine ⟨before, by rw [List.append_assoc]; rfl, none_open, opens, verbatim, ?_⟩
          intro front closing isFront closes
          rcases List.prefix_concat_iff.mp isFront with whole | part
          · obtain ⟨rfl, same⟩ := List.append_inj' whole rfl
            obtain rfl := List.singleton_injective same
            exact fun balanced => stays ⟨closes, balanced⟩
          · exact unclosed front closing part closes
  · obtain ⟨name, entry, since⟩ := element
    rintro ⟨before, rfl, none_open, opens, verbatim, unclosed⟩
    induction since using List.reverseRecOn with
    | nil =>
      have entered := HtmlTag.entered?_eq_some_iff.mpr ⟨opens, verbatim⟩
      change behind settings (before ++ [entry]) = _
      rw [behind_concat, none_open, next, entered]
      rfl
    | append_singleton since tag ih =>
      have earlier := ih opens verbatim fun front closing isFront =>
        unclosed front closing (isFront.trans (List.prefix_append _ _))
      have whole : before ++ tags ⟨name, entry, since ++ [tag]⟩ =
          (before ++ tags ⟨name, entry, since⟩) ++ [tag] := by
        rw [List.append_assoc]
        rfl
      rw [whole, behind_concat, earlier, next]
      exact if_neg fun left => unclosed since tag (List.prefix_refl _) left.1 left.2

/-! ### What reading remembers -/

end VerbatimElement

namespace OpenElement

variable {settings : Settings} {tag : HtmlTag} {divides : Bool} {element : OpenElement}

theorem after_none (settings : Settings) (tag : HtmlTag) (divides : Bool) :
    after settings ⟨tag.start, tag.form, none, divides⟩ tag.selfClosing none =
      (tag.entered? settings).map fun name => ⟨tag.start, name, 0⟩ := by
  obtain ⟨start, form, selfClosing⟩ := tag
  cases form with
  | comment => rfl
  | declaration => rfl
  | element name closing =>
    rw [after, HtmlTag.entered?]
    dsimp only
    cases verbatim : settings.isVerbatimElement name <;> cases closing <;> cases selfClosing <;>
      simp [HtmlTag.opens]

theorem after_of_opens (verbatim : settings.isVerbatimElement element.name = true)
    (opens : tag.opens element.name = true) :
    after settings ⟨tag.start, tag.form, none, divides⟩ tag.selfClosing (some element) =
      some { element with depth := element.depth + 1 } := by
  simp only [HtmlTag.opens, Bool.and_eq_true, decide_eq_true_eq, Bool.not_eq_true'] at opens
  simp [after, opens.1, opens.2, verbatim]

theorem after_of_closes (verbatim : settings.isVerbatimElement element.name = true)
    (closes : tag.closes element.name = true) :
    after settings ⟨tag.start, tag.form, none, divides⟩ tag.selfClosing (some element) =
      if element.depth = 0 then none else some { element with depth := element.depth - 1 } := by
  simp only [HtmlTag.closes, decide_eq_true_eq] at closes
  simp [after, closes, verbatim]

theorem after_of_other (opens : tag.opens element.name = false)
    (closes : tag.closes element.name = false) :
    after settings ⟨tag.start, tag.form, none, divides⟩ tag.selfClosing (some element) =
      some element := by
  obtain ⟨start, form, selfClosing⟩ := tag
  cases form with
  | comment => rfl
  | declaration => rfl
  | element name closing =>
    rw [after]
    dsimp only
    by_cases same : element.name = name
    · subst same
      cases closing <;> cases selfClosing <;> simp_all [HtmlTag.opens, HtmlTag.closes]
    · rw [if_neg same]
      exact ite_self _

end OpenElement

namespace VerbatimElement

/-- The element as reading remembers it: by its name and how many of that name are open inside. -/
def opened (element : VerbatimElement) : OpenElement where
  start := element.entry.start
  name := element.name
  depth := element.tags.countP (HtmlTag.opens element.name) -
    element.tags.countP (HtmlTag.closes element.name) - 1

/-- The element is verbatim, and fewer of its name are closed than are opened. -/
structure IsOpen (settings : Settings) (element : VerbatimElement) : Prop where
  verbatim : settings.isVerbatimElement element.name = true
  fewer : element.tags.countP (HtmlTag.closes element.name) <
    element.tags.countP (HtmlTag.opens element.name)

variable {settings : Settings} {tag : HtmlTag}

theorem countP_tags_through (element : VerbatimElement) (tag : HtmlTag)
    (counted : HtmlTag → Bool) : (element.through tag).tags.countP counted =
      element.tags.countP counted + if counted tag then 1 else 0 := by
  simp only [tags, through, ← List.cons_append, List.countP_append, List.countP_singleton]

theorem opened_through (element : VerbatimElement) (tag : HtmlTag) :
    (element.through tag).opened = ⟨element.entry.start, element.name,
      (element.tags.countP (HtmlTag.opens element.name) +
          if tag.opens element.name then 1 else 0) -
        (element.tags.countP (HtmlTag.closes element.name) +
          if tag.closes element.name then 1 else 0) - 1⟩ := by
  rw [← countP_tags_through, ← countP_tags_through]
  rfl

theorem next_of_closes {element : VerbatimElement} (isOpen : element.IsOpen settings)
    (closes : tag.closes element.name = true) : next settings (some element) tag =
      if element.opened.depth = 0 then none else some (element.through tag) := by
  have fewer := isOpen.fewer
  have balanced : HtmlTag.Balanced element.name (element.through tag).tags ↔
      element.opened.depth = 0 := by
    simp only [HtmlTag.Balanced, countP_tags_through, HtmlTag.opens_of_closes closes, closes,
      opened, if_true, Bool.false_eq_true, if_false]
    omega
  rw [next]
  simp only [closes, balanced, true_and]

theorem next_of_other (element : VerbatimElement) (closes : tag.closes element.name = false) :
    next settings (some element) tag = some (element.through tag) := by
  rw [next, if_neg (by simp [closes])]

/-- The element that is remembered behind one more tag is the one that is open then. -/
theorem after_opened {element : VerbatimElement} (isOpen : element.IsOpen settings)
    (tag : HtmlTag) (divides : Bool) :
    OpenElement.after settings ⟨tag.start, tag.form, none, divides⟩ tag.selfClosing
        (some element.opened) = (next settings (some element) tag).map opened := by
  have fewer := isOpen.fewer
  have through := element.opened_through tag
  cases closes : tag.closes element.name with
  | true =>
    rw [OpenElement.after_of_closes isOpen.verbatim closes, next_of_closes isOpen closes]
    split
    · rfl
    · rw [Option.map_some, through, HtmlTag.opens_of_closes closes, closes]
      refine congrArg some (congrArg (OpenElement.mk _ _) ?_)
      dsimp only [opened]
      simp only [if_true, Bool.false_eq_true, if_false]
      omega
  | false =>
    rw [next_of_other element closes, Option.map_some, through, closes]
    cases opens : tag.opens element.name with
    | true =>
      rw [OpenElement.after_of_opens isOpen.verbatim opens]
      refine congrArg some (congrArg (OpenElement.mk _ _) ?_)
      dsimp only [opened]
      simp only [if_true, Bool.false_eq_true, if_false]
      omega
    | false =>
      rw [OpenElement.after_of_other opens closes]
      rfl

/-- So is every element that is open behind tags. -/
theorem isOpen_of_behind {tags : List HtmlTag} {element : VerbatimElement}
    (open_ : behind settings tags = some element) : element.IsOpen settings := by
  induction tags using List.reverseRecOn generalizing element with
  | nil => cases open_
  | append_singleton tags tag ih =>
    rw [behind_concat] at open_
    cases current : behind settings tags with
    | none =>
      rw [current] at open_
      obtain ⟨name, entered, rfl⟩ := Option.map_eq_some_iff.mp open_
      obtain ⟨opens, verbatim⟩ := HtmlTag.entered?_eq_some_iff.mp entered
      exact ⟨verbatim, by simp [VerbatimElement.tags, opens, HtmlTag.closes_of_opens opens]⟩
    | some earlier =>
      have isOpen := ih current
      have fewer := isOpen.fewer
      rw [current] at open_
      have stays (more : (earlier.through tag).tags.countP (HtmlTag.closes earlier.name) <
          (earlier.through tag).tags.countP (HtmlTag.opens earlier.name)) :
          (earlier.through tag).IsOpen settings := ⟨isOpen.verbatim, more⟩
      rw [countP_tags_through, countP_tags_through] at stays
      cases closes : tag.closes earlier.name with
      | true =>
        rw [next_of_closes isOpen closes] at open_
        split at open_
        · cases open_
        · next deeper =>
          cases open_
          apply stays
          dsimp only [opened] at deeper
          simp only [HtmlTag.opens_of_closes closes, closes, if_true, Bool.false_eq_true, if_false]
          omega
      | false =>
        rw [next_of_other earlier closes] at open_
        cases open_
        apply stays
        simp only [closes, Bool.false_eq_true, if_false]
        omega

/-- What reading remembers behind tags is the element that is open there. -/
theorem after_behind (settings : Settings) (tags : List HtmlTag) (tag : HtmlTag) (divides : Bool) :
    OpenElement.after settings ⟨tag.start, tag.form, none, divides⟩ tag.selfClosing
        ((behind settings tags).map opened) =
      (behind settings (tags ++ [tag])).map opened := by
  rw [behind_concat]
  cases current : behind settings tags with
  | none =>
    rw [Option.map_none, OpenElement.after_none, next, Option.map_map]
    apply Option.map_congr
    intro name entered
    obtain ⟨opens, -⟩ := HtmlTag.entered?_eq_some_iff.mp entered
    simp [opened, VerbatimElement.tags, opens, HtmlTag.closes_of_opens opens]
  | some element => exact after_opened (isOpen_of_behind current) tag divides

end VerbatimElement

/-! ### Texts of tags and characters -/

/-- A part of a text: a character, or a tag with the text that starts it and the text that ends
it. -/
inductive Chunk where
  | text (c : Char)
  | tag (form : TagForm) (front back : List Char)
deriving DecidableEq, Repr

namespace Chunk

def chars : Chunk → List Char
  | .text c => [c]
  | .tag _ front back => front ++ back

/-- The text is made of tags that are complete and of characters that open nothing. -/
inductive MakeUp : List Char → List Chunk → Prop
  | nil : MakeUp [] []
  | text {c : Char} {text : List Char} {chunks : List Chunk} (noBrace : c ≠ '{')
      (noTag : c = '<' → TagForm.start? text = none) (later : MakeUp text chunks) :
      MakeUp (c :: text) (.text c :: chunks)
  | tag {form : TagForm} {text front inside back rest : List Char} {chunks : List Chunk}
      (starts : TagForm.start? text = some (form, front, inside))
      (closes : OpenTag.close? ⟨0, form, none, false⟩ inside = some (back, rest))
      (later : MakeUp rest chunks) :
      MakeUp ('<' :: text) (.tag form ('<' :: front) back :: chunks)

theorem MakeUp.flatMap_chars {text : List Char} {chunks : List Chunk} (made : MakeUp text chunks) :
    chunks.flatMap chars = text := by
  induction made with
  | nil => rfl
  | text noBrace noTag later ih => rw [List.flatMap_cons, ih, chars, List.singleton_append]
  | tag starts closes later ih =>
    rw [List.flatMap_cons, ih, chars, List.append_assoc, OpenTag.append_of_close? closes,
      List.cons_append, TagForm.append_of_start? starts]

theorem MakeUp.nil_iff {text : List Char} : MakeUp text [] ↔ text = [] := by
  constructor
  · rintro ⟨⟩
    rfl
  · rintro rfl
    exact .nil

theorem MakeUp.text_iff {c : Char} {text : List Char} {chunks : List Chunk} :
    MakeUp text (.text c :: chunks) ↔ text.head? = some c ∧ c ≠ '{' ∧
      (c = '<' → TagForm.start? text.tail = none) ∧ MakeUp text.tail chunks := by
  constructor
  · rintro ⟨⟩
    next noBrace noTag later => exact ⟨rfl, noBrace, noTag, later⟩
  · rintro ⟨first, noBrace, noTag, later⟩
    obtain ⟨rest, rfl⟩ := List.head?_eq_some_iff.mp first
    exact .text noBrace noTag later

theorem MakeUp.tag_iff {form : TagForm} {text front back : List Char} {chunks : List Chunk} :
    MakeUp text (.tag form front back :: chunks) ↔ text.head? = some '<' ∧
      ∃ start ∈ TagForm.start? text.tail, (start.1 = form ∧ '<' :: start.2.1 = front) ∧
        ∃ closed ∈ OpenTag.close? ⟨0, form, none, false⟩ start.2.2, closed.1 = back ∧
          MakeUp closed.2 chunks := by
  constructor
  · rintro ⟨⟩
    next starts closes later =>
      exact ⟨rfl, _, starts, ⟨rfl, rfl⟩, _, closes, rfl, later⟩
  · rintro ⟨first, ⟨_, taken, inside⟩, starts, ⟨rfl, rfl⟩, ⟨_, rest⟩, closes, rfl, later⟩
    obtain ⟨text, rfl⟩ := List.head?_eq_some_iff.mp first
    exact .tag starts closes later

instance decidableMakeUp : (text : List Char) → (chunks : List Chunk) →
    Decidable (MakeUp text chunks)
  | _, [] => decidable_of_iff _ MakeUp.nil_iff.symm
  | whole, .text _ :: chunks =>
    have := decidableMakeUp whole.tail chunks
    decidable_of_iff _ MakeUp.text_iff.symm
  | _, .tag .. :: chunks =>
    have := fun rest => decidableMakeUp rest chunks
    decidable_of_iff _ MakeUp.tag_iff.symm

/-- The tags among the parts of a text that begins at `place`. -/
def tags (place : Nat) : List Chunk → List HtmlTag
  | [] => []
  | .text c :: chunks => tags (place + width [c]) chunks
  | .tag form front back :: chunks =>
    ⟨place, form, OpenTag.isSelfClosing back⟩ :: tags (place + width (front ++ back)) chunks

end Chunk

namespace OpenMarkup

/-- Nothing is open but the element, if any, that is open behind the tags. -/
structure Follows (settings : Settings) (tags : List HtmlTag) (markup : OpenMarkup) : Prop where
  tag : markup.tag = .none
  references : markup.references = []
  verbatim : markup.verbatim = (VerbatimElement.behind settings tags).map VerbatimElement.opened

variable {settings : Settings} {tags : List HtmlTag} {markup : OpenMarkup} {place : Nat}
  {c : Char} {text : List Char}

namespace Follows

theorem resumes (follows : markup.Follows settings tags) : markup.Resumes :=
  ⟨follows.tag, by simp [follows.references]⟩

theorem step_eq_stepRunning (follows : markup.Follows settings tags) (place : Nat) (c : Char)
    (text : List Char) :
    markup.step settings place c text = markup.stepRunning settings place c text := by
  simp only [step, follows.tag, follows.references]

/-- A character that opens nothing is passed over as text. -/
theorem passes_text (follows : markup.Follows settings tags) (noBrace : c ≠ '{')
    (noTag : c = '<' → TagForm.start? text = .none) :
    Passes settings markup place [(c, markup.textRole)] text markup := by
  apply Passes.stepText follows.resumes
  rw [follows.step_eq_stepRunning, stepRunning]
  split
  · next less => rw [stepLess, noTag less, less]
  · split
    · next brace => rw [stepClose, follows.references, brace]
    · rfl

/-- A tag that is complete is passed over as markup. -/
theorem exists_passes_tag (follows : markup.Follows settings tags) {form : TagForm}
    {front inside back rest : List Char}
    (starts : TagForm.start? text = some (form, front, inside))
    (closes : OpenTag.close? ⟨0, form, .none, false⟩ inside = some (back, rest)) :
    ∃ next : OpenMarkup,
      next.Follows settings (tags ++ [⟨place, form, OpenTag.isSelfClosing back⟩]) ∧
      Passes settings markup place (('<' :: front ++ back).map (·, .markup)) rest next := by
  -- The first step takes the start of the tag, the second one the rest.
  let begun : OpenMarkup := { markup with
    tag := some ⟨place, form, .none, form.divides settings⟩ }
  have first : markup.step settings place '<' text =
      ⟨[⟨.markup, form.divides settings, '<' :: front⟩], begun, inside⟩ := by
    rw [follows.step_eq_stepRunning, stepRunning, if_pos rfl, stepLess, starts]
  obtain ⟨d, others, shape⟩ := List.exists_cons_of_ne_nil (OpenTag.ne_nil_of_close? closes)
  have whole := OpenTag.append_of_close? closes
  rw [shape, List.cons_append] at whole
  let next : OpenMarkup := { markup with
    tag := .none
    verbatim := OpenElement.after settings ⟨place, form, .none, form.divides settings⟩
      (OpenTag.isSelfClosing back) markup.verbatim }
  have second (here : Nat) : begun.step settings here d (others ++ rest) =
      ⟨[⟨.markup, form.divides settings, back⟩], next, rest⟩ := by
    have closed : OpenTag.close? ⟨place, form, .none, form.divides settings⟩ (d :: (others ++ rest)) =
        some (back, rest) := whole ▸ closes
    simp only [step, begun, stepTag, closed, next]
  refine ⟨next, ⟨rfl, follows.references, ?_⟩, ?_⟩
  · have after := VerbatimElement.after_behind settings tags
      ⟨place, form, OpenTag.isSelfClosing back⟩ (form.divides settings)
    rw [← follows.verbatim] at after
    exact after
  · have start := Passes.step settings markup place '<' text
    have stop := Passes.step settings begun (place + width ('<' :: front)) d (others ++ rest)
    have inner : inside = back ++ rest := (OpenTag.append_of_close? closes).symm
    rw [first, Piece.marks_cons, Piece.marks_nil, List.append_nil, inner] at start
    rw [second, Piece.marks_cons, Piece.marks_nil, List.append_nil] at stop
    have spelled (word : List Char) : (word.map (·, Role.markup)).map Prod.fst = word := by
      rw [List.map_map]
      exact List.map_id word
    rw [List.map_append]
    exact Passes.trans (by rwa [spelled]) (by rwa [spelled])

theorem exists_passes_chunk (follows : markup.Follows settings tags) {chunk : Chunk}
    {chunks : List Chunk} (made : Chunk.MakeUp text (chunk :: chunks)) (place : Nat) :
    ∃ marks rest, ∃ next : OpenMarkup, marks.map Prod.fst = chunk.chars ∧
      text = chunk.chars ++ rest ∧ Chunk.MakeUp rest chunks ∧
      next.Follows settings (tags ++ Chunk.tags place [chunk]) ∧
      Passes settings markup place marks rest next := by
  cases made with
  | text noBrace noTag later =>
    exact ⟨_, _, markup, rfl, rfl, later, by rwa [Chunk.tags, Chunk.tags, List.append_nil],
      follows.passes_text noBrace noTag⟩
  | tag starts closes later =>
    obtain ⟨next, goes, pass⟩ := follows.exists_passes_tag starts closes
    refine ⟨_, _, next, ?_, ?_, later, goes, pass⟩
    · rw [List.map_map]
      exact List.map_id _
    · rw [← TagForm.append_of_start? starts, ← OpenTag.append_of_close? closes, Chunk.chars,
        List.append_assoc]
      rfl

/-- A text is read part by part: in front of the others, parts are passed over, and what is open
then is what is open behind the tags among them. -/
theorem exists_passes (follows : markup.Follows settings tags) {front chunks : List Chunk}
    (made : Chunk.MakeUp text (front ++ chunks)) (place : Nat) :
    ∃ marks rest, ∃ next : OpenMarkup, marks.map Prod.fst = front.flatMap Chunk.chars ∧
      text = front.flatMap Chunk.chars ++ rest ∧ Chunk.MakeUp rest chunks ∧
      next.Follows settings (tags ++ Chunk.tags place front) ∧
      Passes settings markup place marks rest next := by
  induction front generalizing tags markup text place with
  | nil =>
    exact ⟨[], text, markup, rfl, rfl, made, by rwa [Chunk.tags, List.append_nil],
      .nil settings markup place text⟩
  | cons chunk front ih =>
    obtain ⟨first, behind, next, spelled, whole, later, goes, pass⟩ : ∃ marks rest,
        ∃ next : OpenMarkup, marks.map Prod.fst = chunk.chars ∧ text = chunk.chars ++ rest ∧
          Chunk.MakeUp rest (front ++ chunks) ∧
          next.Follows settings (tags ++ Chunk.tags place [chunk]) ∧
          Passes settings markup place marks rest next := follows.exists_passes_chunk made place
    obtain ⟨marks, rest, last, spelledBehind, rfl, others, follows', passes⟩ :=
      ih goes later (place + width chunk.chars)
    have tagged : Chunk.tags place (chunk :: front) =
        Chunk.tags place [chunk] ++ Chunk.tags (place + width chunk.chars) front := by
      cases chunk <;> rfl
    refine ⟨first ++ marks, rest, last, ?_, ?_, others, ?_, ?_⟩
    · rw [List.map_append, spelled, spelledBehind, List.flatMap_cons]
    · rw [whole, List.flatMap_cons, List.append_assoc]
    · rwa [tagged, ← List.append_assoc]
    · refine Passes.trans ?_ (spelled ▸ passes)
      rwa [spelledBehind]

end Follows

end OpenMarkup

end CommentProse
