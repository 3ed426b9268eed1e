import CommentProse.Analysis
import CommentProse.Proofs.Markup.Reaching

/-! # Tags that are broken across lines

A tag can be broken at blanks. What is open at the end of the first line tells the next line the
element of the tag, whether the tag closes it, and the quote of the value that is being read, but no
slash. Whether a tag closes itself is told by the part of it on the line of its `>`. So a slash that
only blanks divide from the `>` is lost if the tag is broken behind it, and the tag opens its
element, or one more of the same name inside it; any other break makes no difference
(`BrokenTag.verbatim_eq_iff`).
-/

namespace CommentProse

/-! ### Elements -/

namespace OpenElement

variable {settings : Settings} {tag : OpenTag} {name : String}

/-- The element that is open after a tag of this name that opens it and does not close itself. -/
def opened (start : Nat) (name : String) : Option OpenElement → OpenElement
  | none => ⟨start, name, 0⟩
  | some element =>
    if element.name = name then { element with depth := element.depth + 1 } else element

theorem after_of_opening (form : tag.form = .element name false)
    (verbatim : settings.isVerbatimElement name = true) (selfClosing : Bool)
    (current : Option OpenElement) :
    after settings tag selfClosing current =
      if selfClosing then current else some (opened tag.start name current) := by
  rw [after, form]
  simp only [verbatim, if_true, Bool.false_or]
  cases current with
  | none => rfl
  | some element =>
    dsimp only [opened]
    split
    · cases selfClosing <;> rfl
    · cases selfClosing <;> rfl

theorem after_of_closing (form : tag.form = .element name true) (selfClosing other : Bool)
    (current : Option OpenElement) :
    after settings tag selfClosing current = after settings tag other current := by
  simp only [after, form, Bool.true_or, if_true]

/-- Only inside an element of another name does such a tag leave everything as it is. -/
theorem some_opened_eq_iff (start : Nat) (name : String) (current : Option OpenElement) :
    some (opened start name current) = current ↔ ∃ element ∈ current, element.name ≠ name := by
  cases current with
  | none => simp
  | some element =>
    obtain ⟨first, other, depth⟩ := element
    by_cases same : other = name <;> simp [opened, same]

end OpenElement

namespace OpenMarkup

variable {settings : Settings} {markup : OpenMarkup} {tag : OpenTag} {text after : List Char}

/-! ### Steps through a tag -/

/-- Where plain text goes on, the start of a tag opens the tag. -/
theorem Reaches.openTag (resumes : markup.Resumes) (place : Nat) {taken rest : List Char}
    {form : TagForm} (starts : TagForm.start? (taken ++ rest) = some (form, taken, rest)) :
    markup.Reaches settings ⟨place, '<' :: (taken ++ rest)⟩
      { markup with tag := some ⟨place, form, .none, form.divides settings⟩ }
      ⟨place + width ('<' :: taken), rest⟩ := by
  refine .step ?_
  rw [resumes.step_eq, stepRunning, if_pos rfl, stepLess, starts]
  simp only [Advance.taken, List.flatMap_cons, List.flatMap_nil, List.append_nil]
  exact .refl _ _

theorem step_of_tag (inside : markup.tag = some tag) (place : Nat) (c : Char) :
    markup.step settings place c text = markup.stepTag settings tag (c :: text) := by
  simp only [step, inside]

/-- Through the end of a tag the tag is read, and its element is opened or closed. -/
theorem Reaches.closeTag (inside : markup.tag = some tag) (place : Nat)
    (closes : tag.close? (text ++ after) = some (text, after)) :
    markup.Reaches settings ⟨place, text ++ after⟩
      { markup with
        tag := .none
        verbatim := OpenElement.after settings tag (OpenTag.isSelfClosing text) markup.verbatim }
      ⟨place + width text, after⟩ := by
  obtain ⟨c, others, rfl⟩ := List.exists_cons_of_ne_nil (OpenTag.ne_nil_of_close? closes)
  rw [List.cons_append] at closes ⊢
  refine .step ?_
  rw [step_of_tag inside, stepTag, closes]
  simp only [Advance.taken, List.flatMap_cons, List.flatMap_nil, List.append_nil]
  exact .refl _ _

/-- A tag that does not end in a text is carried over it. -/
theorem read_of_carry (inside : markup.tag = some tag) (place : Nat)
    (goesOn : tag.close? text = .none) :
    (markup.read settings place text).2 = { markup with tag := some (tag.carry text) } := by
  cases text with
  | nil =>
    have same : tag.carry [] = tag := by
      obtain ⟨start, form, quote, divides⟩ := tag
      cases form <;> rfl
    rw [read, same, ← inside]
  | cons c text =>
    rw [read_cons, step_of_tag inside, stepTag, goesOn]
    simp [read]

end OpenMarkup

/-! ### The tag -/

/-- The characters of the name of an element. -/
def TagForm.isElementChar (c : Char) : Bool := c.isAlphanum || c == '-'

/-- A tag of a verbatim element, with a place where it is broken. -/
structure BrokenTag (settings : Settings) where
  /-- Whether the tag is an end tag. -/
  closing : Bool
  name : List Char
  /-- What stands behind the name, up to the break. -/
  front : List Char
  /-- The blanks that the break stands for. -/
  gap : List Char
  /-- What stands between the break and the end of the tag. -/
  back : List Char
  name_begins : (name.head?.map Char.isAlpha).getD false = true
  name_chars : ∀ c ∈ name, TagForm.isElementChar c = true
  name_ends : ∀ c ∈ (front ++ gap ++ back).head?, TagForm.isElementChar c = false
  gap_blank : ∀ c ∈ gap, isBlank c = true
  /-- No earlier `>` stands outside of quotes. -/
  ends : OpenTag.splitEnd? none (front ++ gap ++ back ++ ['>']) =
    some (front ++ gap ++ back ++ ['>'], [])
  verbatim : settings.isVerbatimElement (String.ofList (name.map Char.toLower)) = true

namespace OpenTag

variable {quote : Option Char} {front back : List Char}

/-- A tag that ends with a text, and not before, does not end in a front part of the text, and ends
with the rest. -/
theorem splitEnd?_of_append (nonempty : back ≠ [])
    (ends : splitEnd? quote (front ++ back) = some (front ++ back, [])) :
    splitEnd? quote front = none ∧
      splitEnd? (front.foldl quoteAfter quote) back = some (back, []) := by
  rw [splitEnd?_append] at ends
  cases found : splitEnd? quote front with
  | some parts =>
    rw [found] at ends
    obtain ⟨-, nothing⟩ := Prod.mk.inj (Option.some.inj ends)
    exact absurd (List.append_eq_nil_iff.mp nothing).2 nonempty
  | none =>
    rw [found] at ends
    obtain ⟨⟨taken, rest⟩, behind, same⟩ := Option.map_eq_some_iff.mp ends
    obtain ⟨taken_eq, rfl⟩ := Prod.mk.inj same
    obtain rfl := List.append_cancel_left taken_eq
    exact ⟨rfl, behind⟩

/-- The open quote of a value is no blank. -/
theorem isBlank_of_foldl_quoteAfter (visible : ∀ mark ∈ quote, isBlank mark = false) :
    ∀ mark ∈ front.foldl quoteAfter quote, isBlank mark = false := by
  induction front generalizing quote with
  | nil => exact visible
  | cons c front ih =>
    refine ih fun mark after => ?_
    cases quote with
    | some opened =>
      obtain ⟨-, rfl⟩ : c ≠ opened ∧ opened = mark := by simpa [quoteAfter] using after
      exact visible opened rfl
    | none =>
      obtain ⟨opens, rfl⟩ : (c = '"' ∨ c = '\'') ∧ c = mark := by simpa [quoteAfter] using after
      rcases opens with rfl | rfl <;> decide

/-- Blanks open and close no quote. -/
theorem foldl_quoteAfter_of_blank (visible : ∀ mark ∈ quote, isBlank mark = false)
    {gap : List Char} (blank : ∀ c ∈ gap, isBlank c = true) :
    gap.foldl quoteAfter quote = quote := by
  induction gap with
  | nil => rfl
  | cons c gap ih =>
    obtain ⟨first, others⟩ := List.forall_mem_cons.mp blank
    have same : quoteAfter quote c = quote := by
      cases quote with
      | some mark => exact if_neg (ne_of_isBlank first (visible mark rfl))
      | none =>
        refine if_neg ?_
        rintro (rfl | rfl) <;> cases first
    rw [List.foldl_cons, same, ih others]

end OpenTag

namespace BrokenTag

variable {settings : Settings} (broken : BrokenTag settings)

/-- The element of the tag. -/
def element : String := String.ofList (broken.name.map Char.toLower)

/-- The tag behind its `<`, up to the end of its name. -/
def head : List Char := (if broken.closing then ['/'] else []) ++ broken.name

/-- What stands behind the name on one line. -/
def tail : List Char := broken.front ++ broken.gap ++ broken.back ++ ['>']

/-- The tag on one line. -/
def text : List Char := '<' :: (broken.head ++ broken.tail)

/-- The tag closes itself by a slash that stands before the break, with nothing but blanks between
the slash and the end of the tag. -/
def LosesSlash : Prop :=
  broken.closing = false ∧ ¬EndsWithoutSlash broken.front ∧ allBlank broken.back = true

/-- The open tag behind its name. -/
def openTag (place : Nat) : OpenTag :=
  let form := .element broken.element broken.closing
  ⟨place, form, none, form.divides settings⟩

theorem after_openTag (opens : broken.closing = false) (place : Nat) (selfClosing : Bool)
    (current : Option OpenElement) :
    OpenElement.after settings (broken.openTag place) selfClosing current =
      if selfClosing then current else some (.opened place broken.element current) := by
  have form : (broken.openTag place).form = .element broken.element false := by
    rw [openTag, opens]
  exact OpenElement.after_of_opening form broken.verbatim selfClosing current

theorem start?_head {rest : List Char}
    (ends : ∀ c ∈ rest.head?, TagForm.isElementChar c = false) :
    TagForm.start? (broken.head ++ rest) =
      some (.element broken.element broken.closing, broken.head, rest) := by
  obtain ⟨c, others, name⟩ : ∃ c others, broken.name = c :: others := by
    refine List.exists_cons_of_ne_nil fun empty => ?_
    have begins := broken.name_begins
    rw [empty] at begins
    cases begins
  have behind := broken.name_chars
  have takes : (broken.name ++ rest).takeWhile TagForm.isElementChar = broken.name ∧
      (broken.name ++ rest).dropWhile TagForm.isElementChar = rest := by
    rw [List.takeWhile_append_of_pos behind, List.dropWhile_append_of_pos behind]
    cases rest with
    | nil => simp
    | cons d rest => simp [ends d rfl]
  have element (marker : List Char) (closing : Bool) :
      TagForm.element? marker closing (broken.name ++ rest) =
        some (.element broken.element closing, marker ++ broken.name, rest) := by
    have begins : ((broken.name ++ rest).head?.map Char.isAlpha).getD false = true := by
      have first := broken.name_begins
      rwa [name] at first ⊢
    have chars : (fun c : Char => c.isAlphanum || c == '-') = TagForm.isElementChar := rfl
    rw [TagForm.element?, if_pos begins, chars, takes.1, takes.2]
    rfl
  rw [head]
  cases broken.closing with
  | true => exact element ['/'] true
  | false =>
    have letter : c.isAlpha = true := by simpa [name] using broken.name_begins
    have bang : c ≠ '!' := by
      rintro rfl
      cases letter
    have slash : c ≠ '/' := by
      rintro rfl
      cases letter
    have plain := element [] false
    rw [name] at plain ⊢
    simpa [TagForm.start?, bang, slash] using plain

/-- The end of the tag is not in the part before the break. -/
theorem splitEnd?_front : OpenTag.splitEnd? none broken.front = none := by
  have ends := broken.ends
  rw [List.append_assoc, List.append_assoc] at ends
  exact (OpenTag.splitEnd?_of_append (by simp) ends).1

theorem splitEnd?_back :
    OpenTag.splitEnd? (broken.front.foldl OpenTag.quoteAfter none) (broken.back ++ ['>']) =
      some (broken.back ++ ['>'], []) := by
  have ends := broken.ends
  rw [List.append_assoc] at ends
  obtain ⟨-, ends⟩ := OpenTag.splitEnd?_of_append (by simp) ends
  rwa [List.foldl_append, OpenTag.foldl_quoteAfter_of_blank
    (OpenTag.isBlank_of_foldl_quoteAfter (by simp)) broken.gap_blank] at ends

/-! ### The two lines -/

theorem tail_append_head (after : List Char) :
    ∀ c ∈ (broken.tail ++ after).head?, TagForm.isElementChar c = false := by
  have ends := broken.name_ends
  rw [tail]
  generalize broken.front ++ broken.gap ++ broken.back = text at ends
  cases text with
  | nil =>
    rintro _ ⟨⟩
    decide
  | cons d text => exact ends

theorem front_head : ∀ c ∈ broken.front.head?, TagForm.isElementChar c = false := by
  have ends := broken.name_ends
  cases front : broken.front with
  | nil => simp
  | cons d text =>
    rw [front] at ends
    exact ends

variable {markup running : OpenMarkup} {start place : Nat} {before after : List Char}

theorem reaches_opening (resumes : running.Resumes) (place : Nat) {rest : List Char}
    (ends : ∀ c ∈ rest.head?, TagForm.isElementChar c = false) :
    running.Reaches settings ⟨place, '<' :: (broken.head ++ rest)⟩
      { running with tag := some (broken.openTag place) }
      ⟨place + width ('<' :: broken.head), rest⟩ :=
  .openTag resumes place (broken.start?_head ends)

/-- On one line the tag is read from its `<` to its end. -/
theorem reaches_text (resumes : running.Resumes) (place : Nat) (after : List Char) :
    running.Reaches settings ⟨place, broken.text ++ after⟩
      { running with
        verbatim := OpenElement.after settings (broken.openTag place)
          (OpenTag.isSelfClosing broken.tail) running.verbatim }
      ⟨place + width broken.text, after⟩ := by
  have closes : (broken.openTag place).close? (broken.tail ++ after) =
      some (broken.tail, after) := by
    have ends := OpenTag.splitEnd?_append none broken.tail after
    rwa [show OpenTag.splitEnd? none broken.tail = some (broken.tail, []) from broken.ends] at ends
  have opens := broken.reaches_opening resumes place (broken.tail_append_head after)
  have whole := opens.trans (.closeTag rfl _ closes)
  have size : place + width broken.text =
      place + width ('<' :: broken.head) + width broken.tail := by
    rw [text, ← List.cons_append, width_append, Nat.add_assoc]
  obtain ⟨tag, references, verbatim, reach⟩ := running
  obtain rfl : tag = none := resumes.tag
  have parts : broken.text ++ after = '<' :: (broken.head ++ (broken.tail ++ after)) := by
    simp [text]
  rw [parts, size]
  exact whole

/-- At the end of the first line the tag is open, with the quote that is open in it. -/
theorem read_first (resumes : running.Resumes)
    (reaches : markup.Reaches settings ⟨start, before ++ (broken.text ++ after)⟩
      running ⟨place, broken.text ++ after⟩) :
    (markup.read settings start (before ++ '<' :: (broken.head ++ broken.front))).2 =
      { running with tag := some ((broken.openTag place).carry broken.front) } := by
  have up := reaches.of_less (broken.head ++ broken.front)
  have opens := broken.reaches_opening resumes place broken.front_head
  obtain ⟨pieces, -, read⟩ := (up.trans opens).exists_pieces
  rw [read]
  exact OpenMarkup.read_of_carry rfl _ broken.splitEnd?_front

/-- On the second line the rest of the tag is read. -/
theorem reaches_back (inside : markup.tag = some ((broken.openTag place).carry broken.front))
    (next : Nat) (after : List Char) :
    markup.Reaches settings ⟨next, broken.back ++ '>' :: after⟩
      { markup with
        tag := none
        verbatim := OpenElement.after settings (broken.openTag place)
          (OpenTag.isSelfClosing (broken.back ++ ['>'])) markup.verbatim }
      ⟨next + width (broken.back ++ ['>']), after⟩ := by
  have closes : ((broken.openTag place).carry broken.front).close?
      (broken.back ++ ['>'] ++ after) = some (broken.back ++ ['>'], after) := by
    have ends := OpenTag.splitEnd?_append (broken.front.foldl OpenTag.quoteAfter none)
      (broken.back ++ ['>']) after
    rwa [broken.splitEnd?_back] at ends
  have ends := @OpenMarkup.Reaches.closeTag settings _ _ _ _ inside next closes
  rw [OpenTag.after_carry, List.append_assoc] at ends
  exact ends

/-! ### The slash -/

/-- The open element behind the tag, if the part of it that tells whether it closes itself is
`last`. -/
def elementAfter (place : Nat) (last : List Char) (current : Option OpenElement) :
    Option OpenElement :=
  OpenElement.after settings (broken.openTag place) (OpenTag.isSelfClosing last) current

theorem elementAfter_of_slash (place : Nat) (opens : broken.closing = false) {text : List Char}
    (slash : ¬EndsWithoutSlash text) (current : Option OpenElement) :
    broken.elementAfter place (text ++ ['>']) current = current := by
  have closes : OpenTag.isSelfClosing (text ++ ['>']) = true := by
    rwa [OpenTag.isSelfClosing_iff, List.dropLast_concat]
  rw [elementAfter, broken.after_openTag opens, if_pos closes]

theorem elementAfter_of_noSlash (place : Nat) (opens : broken.closing = false) {text : List Char}
    (noSlash : EndsWithoutSlash text) (current : Option OpenElement) :
    broken.elementAfter place (text ++ ['>']) current =
      some (OpenElement.opened place broken.element current) := by
  have stays : ¬OpenTag.isSelfClosing (text ++ ['>']) = true := by
    rwa [OpenTag.isSelfClosing_iff, List.dropLast_concat, not_not]
  rw [elementAfter, broken.after_openTag opens, if_neg stays]

/-- Where no slash is lost, the tag does behind the break what it does on one line. -/
theorem elementAfter_back (keeps : ¬broken.LosesSlash) (place : Nat)
    (current : Option OpenElement) :
    broken.elementAfter place (broken.back ++ ['>']) current =
      broken.elementAfter place broken.tail current := by
  cases closing : broken.closing with
  | true =>
    exact OpenElement.after_of_closing (by rw [openTag, closing]) _ _ current
  | false =>
    have same : EndsWithoutSlash broken.back ↔
        EndsWithoutSlash (broken.front ++ broken.gap ++ broken.back) := by
      by_cases blank : allBlank broken.back = true
      · have noSlash : EndsWithoutSlash broken.front := by
          by_contra slash
          exact keeps ⟨closing, slash, blank⟩
        rw [endsWithoutSlash_append_of_allBlank _ blank,
          endsWithoutSlash_append_of_allBlank _ (List.all_eq_true.mpr broken.gap_blank)]
        exact iff_of_true (endsWithoutSlash_of_allBlank blank) noSlash
      · rw [endsWithoutSlash_append_of_visible _ (Bool.eq_false_iff.mpr blank)]
    by_cases noSlash : EndsWithoutSlash broken.back
    · rw [broken.elementAfter_of_noSlash place closing noSlash, tail,
        broken.elementAfter_of_noSlash place closing (same.mp noSlash)]
    · rw [broken.elementAfter_of_slash place closing noSlash, tail,
        broken.elementAfter_of_slash place closing (mt same.mpr noSlash)]

/-- A slash that is lost has closed the tag on one line. -/
theorem LosesSlash.slash {broken : BrokenTag settings} (loses : broken.LosesSlash) :
    ¬EndsWithoutSlash (broken.front ++ broken.gap ++ broken.back) := by
  rw [endsWithoutSlash_append_of_allBlank _ loses.2.2,
    endsWithoutSlash_append_of_allBlank _ (List.all_eq_true.mpr broken.gap_blank)]
  exact loses.2.1

/-- The open element behind a broken tag is the one behind the tag on one line, unless a slash is
lost and the tag counts. -/
theorem elementAfter_eq_iff (place : Nat) (current : Option OpenElement) :
    broken.elementAfter place (broken.back ++ ['>']) current =
        broken.elementAfter place broken.tail current ↔
      ¬(broken.LosesSlash ∧ ∀ element ∈ current, element.name = broken.element) := by
  by_cases loses : broken.LosesSlash
  · have behind := broken.elementAfter_of_noSlash place loses.1
      (endsWithoutSlash_of_allBlank loses.2.2) current
    have whole := broken.elementAfter_of_slash place loses.1 loses.slash current
    rw [behind, tail, whole, OpenElement.some_opened_eq_iff]
    simp [loses]
  · simp [loses, broken.elementAfter_back loses]

/-- A tag of a verbatim element is read on one line and broken over two, where the second line ends
no markup. It leaves the same element open, unless it is a tag that opens its element, its slash
stands before the break with only blanks behind it, and no element of another name is open. Then the
tag closes itself on one line, and opens its element, or one more inside it, if it is broken. -/
theorem verbatim_eq_iff (resumes : running.Resumes)
    (reaches : markup.Reaches settings ⟨start, before ++ (broken.text ++ after)⟩
      running ⟨start + width before, broken.text ++ after⟩)
    {second : CommentLine} (goesOn : second.edge? = none)
    (rest : second.text = broken.back ++ '>' :: after) :
    let first := (markup.readLine settings
      ⟨start, before ++ '<' :: (broken.head ++ broken.front)⟩).2
    ∃ whole behind : Option OpenElement,
      markup.Reaches settings ⟨start, before ++ (broken.text ++ after)⟩
        { running with verbatim := whole } ⟨start + width (before ++ broken.text), after⟩ ∧
      (first.openAt second).Reaches settings second.content
        { running with verbatim := behind, reach := first.reach }
        ⟨second.content.start + width (broken.back ++ ['>']), after⟩ ∧
      (broken.closing = false →
        ¬EndsWithoutSlash (broken.front ++ broken.gap ++ broken.back) →
        whole = running.verbatim) ∧
      (broken.LosesSlash →
        behind = some (.opened (start + width before) broken.element running.verbatim)) ∧
      (behind = whole ↔
        ¬(broken.LosesSlash ∧ ∀ element ∈ running.verbatim, element.name = broken.element)) := by
  intro first
  have content : second.content = ⟨second.content.start, broken.back ++ '>' :: after⟩ := by
    rw [← rest]
    rfl
  have last := broken.read_first resumes reaches
  have carried : first.openAt second = { running with
      tag := some ((broken.openTag (start + width before)).carry broken.front)
      reach := first.reach } := by
    rw [OpenMarkup.openAt, goesOn]
    simp only [first, OpenMarkup.readLine, last]
    rfl
  refine ⟨broken.elementAfter (start + width before) broken.tail running.verbatim,
    broken.elementAfter (start + width before) (broken.back ++ ['>']) running.verbatim,
    ?_, ?_, ?_, ?_, ?_⟩
  · rw [width_append, ← Nat.add_assoc]
    exact reaches.trans (broken.reaches_text resumes _ after)
  · obtain ⟨tag, references, verbatim, reach⟩ := running
    obtain rfl : tag = none := resumes.tag
    rw [carried, content]
    exact broken.reaches_back rfl second.content.start after
  · intro opens slash
    exact broken.elementAfter_of_slash _ opens slash running.verbatim
  · intro loses
    exact broken.elementAfter_of_noSlash _ loses.1 (endsWithoutSlash_of_allBlank loses.2.2)
      running.verbatim
  · exact broken.elementAfter_eq_iff _ running.verbatim

/-- An empty element whose `>` stands on the next line: what follows is taken for its content. -/
theorem verbatim_eq_iff_lost_slash :
    let settings := Settings.standard
    let first := (OpenMarkup.none.readLine settings ⟨4, "see <pre /".toList⟩).2
    let second : CommentLine := ⟨15, " * ".toList, "> a ".toList, []⟩
    second.edge? = none ∧
    (∃ whole behind : Option OpenElement,
      OpenMarkup.none.Reaches settings ⟨4, "see <pre / > a ".toList⟩
        { OpenMarkup.none with verbatim := whole } ⟨16, " a ".toList⟩ ∧
      (first.openAt second).Reaches settings second.content
        { OpenMarkup.none with verbatim := behind, reach := 14 } ⟨19, " a ".toList⟩ ∧
      whole = none ∧ behind = some ⟨8, "pre", 0⟩ ∧ behind ≠ whole) ∧
    (∃ analysis, Analysis.ofBlock settings ⟨0, "/** see <pre / > a */".toList⟩ = .ok analysis ∧
      analysis.passages.map Passage.text = ["see a".toList] ∧ analysis.unfinished = []) ∧
    ∃ analysis, Analysis.ofBlock settings ⟨0, "/** see <pre /\n * > a */".toList⟩ = .ok analysis ∧
      analysis.passages.map Passage.text = ["see".toList] ∧
      analysis.unfinished = [⟨.element "pre", ⟨8, 22⟩⟩] := by
  intro settings first second
  let broken : BrokenTag settings :=
    { closing := false
      name := "pre".toList
      front := " /".toList
      gap := [' ']
      back := []
      name_begins := by decide
      name_chars := List.all_eq_true.mp (by decide)
      name_ends := by rintro _ ⟨⟩; decide
      gap_blank := List.all_eq_true.mp (by decide)
      ends := by decide
      verbatim := by decide +kernel }
  have resumes : OpenMarkup.none.Resumes := ⟨rfl, by rintro _ ⟨⟩⟩
  have reaches : OpenMarkup.none.Reaches settings
      ⟨4, "see ".toList ++ (broken.text ++ " a ".toList)⟩
      OpenMarkup.none ⟨4 + width "see ".toList, broken.text ++ " a ".toList⟩ :=
    .step (.refl _ _)
  have goesOn : second.edge? = none := by decide
  have result := broken.verbatim_eq_iff resumes reaches goesOn rfl
  have onFirst : "see ".toList ++ '<' :: (broken.head ++ broken.front) = "see <pre /".toList := by
    decide +kernel
  have onOne : "see ".toList ++ (broken.text ++ " a ".toList) = "see <pre / > a ".toList := by
    decide +kernel
  have upTo : 4 + width ("see ".toList ++ broken.text) = 16 := by decide +kernel
  have reach : first.reach = 14 := by decide +kernel
  rw [onFirst, onOne, upTo] at result
  obtain ⟨whole, behind, one, two, same, lost, differ⟩ := result
  rw [reach] at two
  have loses : broken.LosesSlash := ⟨rfl, by decide, by decide⟩
  have onOneLine : Analysis.ofBlock settings ⟨0, "/** see <pre / > a */".toList⟩ = .ok
      { offset := 0
        comment := ⟨" see <pre / > a ".toList, []⟩
        lines := [⟨⟨3, [' '], "see <pre / > a ".toList, []⟩,
          [⟨.prose, ⟨4, 8⟩, false⟩, ⟨.markup, ⟨8, 16⟩, false⟩, ⟨.prose, ⟨16, 19⟩, false⟩]⟩]
        unfinished := []
        passages := [⟨0, 0, .description, "see a".toList, ⟨[⟨4, 4⟩, ⟨17, 1⟩]⟩⟩] } := by
    decide +kernel
  have overTwo : Analysis.ofBlock settings ⟨0, "/** see <pre /\n * > a */".toList⟩ = .ok
      { offset := 0
        comment := ⟨" see <pre /\n * > a ".toList, []⟩
        lines :=
          [⟨⟨3, [' '], "see <pre /".toList, ['\n']⟩,
            [⟨.prose, ⟨4, 8⟩, false⟩, ⟨.markup, ⟨8, 14⟩, false⟩]⟩,
          ⟨second, [⟨.markup, ⟨18, 22⟩, false⟩]⟩]
        unfinished := [⟨.element "pre", ⟨8, 22⟩⟩]
        passages := [⟨0, 0, .description, "see".toList, ⟨[⟨4, 3⟩]⟩⟩] } := by
    decide +kernel
  refine ⟨goesOn, ⟨whole, behind, one, two, same rfl loses.slash, lost loses, ?_⟩,
    ⟨_, onOneLine, rfl, rfl⟩, _, overTwo, rfl, rfl⟩
  rw [Ne, differ]
  exact not_not.mpr ⟨loses, by rintro _ ⟨⟩⟩

end BrokenTag

end CommentProse
