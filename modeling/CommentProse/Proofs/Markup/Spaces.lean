import CommentProse.Markup.Reading
import Mathlib.Data.List.Basic
import Mathlib.Data.List.TakeWhile

/-! # Scans and spaces

How the scans that reading is made of fare on a text with a space in it. Most of them end before a
space, so they take the same of the text before the space alone. The others, through the end of a
tag, of an excluded body or of a target in parentheses, end before the space or take all of the text
before it and the space.
-/

namespace CommentProse

/-! ### Visible characters -/

/-- The characters that are blank. -/
private def blanks : List Char :=
  ((List.range' 0x9 5 ++ [0x20, 0x85, 0xa0, 0x1680] ++ List.range' 0x2000 11 ++
    [0x2028, 0x2029, 0x202f, 0x205f, 0x3000]).map Char.ofNat)

private theorem mem_blanks {c : Char} (blank : isBlank c = true) : c ∈ blanks := by
  have code : c = Char.ofNat c.toNat := (Char.ofNat_toNat c).symm
  rw [code]
  apply List.mem_map_of_mem
  simp only [isBlank, Bool.or_eq_true, Bool.and_eq_true, decide_eq_true_eq, beq_iff_eq] at blank
  simp only [List.mem_append, List.mem_range'_1, List.mem_cons, List.not_mem_nil, or_false]
  omega

/-- What holds of these characters holds of every blank. -/
private theorem of_blanks {p : Char → Bool} (all : blanks.all p = true) {c : Char}
    (blank : isBlank c = true) : p c = true :=
  List.all_eq_true.mp all c (mem_blanks blank)

theorem ne_of_isBlank {c d : Char} (blank : isBlank c = true) (visible : isBlank d = false) :
    c ≠ d := by
  rintro rfl
  rw [visible] at blank
  cases blank

/-- No blank belongs to a name. -/
theorem isBlank_of_isNameChar {c : Char} (named : isNameChar c = true) : isBlank c = false := by
  refine Bool.eq_false_iff.mpr fun blank => ?_
  have unnamed := of_blanks (p := (!isNameChar ·)) (by decide +kernel) blank
  simp [named] at unnamed

theorem isBlank_of_isAlpha {c : Char} (letter : c.isAlpha = true) : isBlank c = false := by
  refine Bool.eq_false_iff.mpr fun blank => ?_
  have other := of_blanks (p := (!·.isAlpha)) (by decide +kernel) blank
  simp [letter] at other

/-! ### Characters and delimiters -/

section Scans

variable {p : Char → Bool} {c : Char}

theorem takeWhile_append_cons_of_neg (ends : p c = false) (text after : List Char) :
    (text ++ c :: after).takeWhile p = text.takeWhile p := by
  induction text with
  | nil => simp [ends]
  | cons d text ih =>
    rw [List.cons_append, List.takeWhile_cons, List.takeWhile_cons, ih]

theorem dropWhile_append_cons_of_neg (ends : p c = false) (text after : List Char) :
    (text ++ c :: after).dropWhile p = text.dropWhile p ++ c :: after := by
  induction text with
  | nil => simp [ends]
  | cons d text ih =>
    rw [List.cons_append, List.dropWhile_cons, List.dropWhile_cons, ih]
    split <;> rfl

/-- A scan that takes all of a text and the character behind it goes on behind that one. -/
theorem takeWhile_append_cons_of_pos {text : List Char} (all : ∀ d ∈ text, p d = true)
    (goes : p c = true) (after : List Char) :
    (text ++ c :: after).takeWhile p = text ++ c :: after.takeWhile p ∧
      (text ++ c :: after).dropWhile p = after.dropWhile p := by
  rw [List.takeWhile_append_of_pos all, List.dropWhile_append_of_pos all,
    List.takeWhile_cons_of_pos goes, List.dropWhile_cons_of_pos goes]
  exact ⟨rfl, rfl⟩

/-- A scan that ends within a text is not changed by what follows. -/
theorem takeWhile_append_of_exists {text : List Char} (ends : ∃ d ∈ text, p d = false)
    (more : List Char) :
    (text ++ more).takeWhile p = text.takeWhile p ∧
      (text ++ more).dropWhile p = text.dropWhile p ++ more := by
  obtain ⟨d, member, ends⟩ := ends
  obtain ⟨front, back, rfl⟩ := List.append_of_mem member
  rw [List.append_assoc, List.cons_append, takeWhile_append_cons_of_neg ends,
    takeWhile_append_cons_of_neg ends, dropWhile_append_cons_of_neg ends,
    dropWhile_append_cons_of_neg ends, List.append_assoc, List.cons_append]
  exact ⟨rfl, rfl⟩

variable {delimiter : List Char}

theorem isPrefixOf_append_cons (outside : c ∉ delimiter) (text after : List Char) :
    delimiter.isPrefixOf (text ++ c :: after) = delimiter.isPrefixOf text := by
  induction delimiter generalizing text with
  | nil => cases text <;> rfl
  | cons d delimiter ih =>
    obtain ⟨other, outside⟩ := List.ne_and_not_mem_of_not_mem_cons outside
    cases text with
    | nil => simp [List.isPrefixOf, Ne.symm other]
    | cons e text => simp [List.isPrefixOf, ih outside]

/-- A delimiter without the character is found before it or behind it. -/
theorem splitBefore?_append_cons (outside : c ∉ delimiter) (nonempty : delimiter ≠ [])
    (text after : List Char) :
    splitBefore? delimiter (text ++ c :: after) =
      match splitBefore? delimiter text with
      | some (taken, rest) => some (taken, rest ++ c :: after)
      | none => (splitBefore? delimiter (c :: after)).map fun (taken, rest) =>
          (text ++ taken, rest) := by
  induction text with
  | nil => simp [splitBefore?, nonempty]
  | cons d text ih =>
    have whole := isPrefixOf_append_cons outside (d :: text) after
    rw [List.cons_append] at whole ⊢
    rw [splitBefore?, whole, splitBefore?, ih]
    split
    · rfl
    · cases splitBefore? delimiter text with
      | some parts => rfl
      | none => simp [Option.map_map, Function.comp_def]

/-- Where a delimiter is found in one of two parts, its end is. -/
theorem splitThrough?_append_of_splitBefore? {front back : List Char}
    (found : splitBefore? delimiter (front ++ back) =
      match splitBefore? delimiter front with
      | some (taken, rest) => some (taken, rest ++ back)
      | none => (splitBefore? delimiter back).map fun (taken, rest) => (front ++ taken, rest)) :
    splitThrough? delimiter (front ++ back) =
      match splitThrough? delimiter front with
      | some (taken, rest) => some (taken, rest ++ back)
      | none => (splitThrough? delimiter back).map fun (taken, rest) => (front ++ taken, rest) := by
  rw [splitThrough?, splitThrough?, found]
  cases found : splitBefore? delimiter front with
  | some parts =>
    obtain ⟨taken, rest⟩ := parts
    have long : delimiter.length ≤ rest.length :=
      (List.isPrefixOf_iff_prefix.mp (isPrefixOf_of_splitBefore? found)).length_le
    simp only [Option.map_some, List.take_append_of_le_length long,
      List.drop_append_of_le_length long]
  | none => simp [splitThrough?, Option.map_map, Function.comp_def]

end Scans

namespace OpenTag

/-- The end of a tag is found in a text, or in what follows with the quote that is open there. -/
theorem splitEnd?_append (quote : Option Char) (front back : List Char) :
    splitEnd? quote (front ++ back) =
      match splitEnd? quote front with
      | some (taken, rest) => some (taken, rest ++ back)
      | none => (splitEnd? (front.foldl quoteAfter quote) back).map fun (taken, rest) =>
          (front ++ taken, rest) := by
  induction front generalizing quote with
  | nil => simp [splitEnd?]
  | cons c front ih =>
    rw [List.cons_append, splitEnd?, splitEnd?]
    split
    · rfl
    · rw [ih, List.foldl_cons]
      cases splitEnd? (quoteAfter quote c) front with
      | some parts => rfl
      | none => simp [Option.map_map, Function.comp_def]

/-- The end of a tag is found before a character that no end has, or from it on with the tag that is
carried over. -/
theorem close?_append_cons {c : Char} (outside : c ∉ ['-', '-', '>']) (tag : OpenTag)
    (text after : List Char) :
    tag.close? (text ++ c :: after) =
      match tag.close? text with
      | some (taken, rest) => some (taken, rest ++ c :: after)
      | none => ((tag.carry text).close? (c :: after)).map fun (taken, rest) =>
          (text ++ taken, rest) := by
  obtain ⟨start, form, quote, divides⟩ := tag
  cases form with
  | comment =>
    exact splitThrough?_append_of_splitBefore?
      (splitBefore?_append_cons outside (by decide) text after)
  | declaration => exact splitEnd?_append quote text (c :: after)
  | element name closing => exact splitEnd?_append quote text (c :: after)

/-- The end of a tag is found before a space, or the tag takes the space. -/
theorem close?_append_space (tag : OpenTag) (text after : List Char) :
    (∃ taken rest, tag.close? text = some (taken, rest) ∧
        tag.close? (text ++ ' ' :: after) = some (taken, rest ++ ' ' :: after)) ∨
      ∀ taken rest, tag.close? (text ++ ' ' :: after) = some (taken, rest) →
        ∃ more, taken = text ++ ' ' :: more := by
  rw [close?_append_cons (by decide)]
  cases tag.close? text with
  | some parts => exact .inl ⟨parts.1, parts.2, rfl, rfl⟩
  | none =>
    right
    intro taken rest ended
    obtain ⟨⟨later, behind⟩, found, same⟩ := Option.map_eq_some_iff.mp ended
    cases same
    obtain ⟨first, more, rfl⟩ := List.exists_cons_of_ne_nil (ne_nil_of_close? found)
    obtain ⟨rfl, -⟩ := List.cons_eq_cons.mp (append_of_close? found)
    exact ⟨more, rfl⟩

end OpenTag

namespace TagForm

/-- The characters that the start of a tag can have. -/
def isStartChar (c : Char) : Bool := c.isAlphanum || c == '-' || c == '!' || c == '/'

variable {b : Char}

theorem element?_append_cons (ends : isStartChar b = false) (marker : List Char)
    (closing : Bool) (text after : List Char) :
    element? marker closing (text ++ b :: after) =
      (element? marker closing text).map fun (form, taken, rest) =>
        (form, taken, rest ++ b :: after) := by
  simp only [isStartChar, Bool.or_eq_false_iff] at ends
  have stops : (fun c : Char => c.isAlphanum || c == '-') b = false := by simp [ends]
  have head : (((text ++ b :: after).head?.map Char.isAlpha).getD false) =
      (text.head?.map Char.isAlpha).getD false := by
    cases text with
    | nil =>
      have letter := ends.1.1.1
      rw [Char.isAlphanum, Bool.or_eq_false_iff] at letter
      simpa using letter.1
    | cons c text => rfl
  rw [element?, element?, head, takeWhile_append_cons_of_neg stops,
    dropWhile_append_cons_of_neg stops]
  dsimp only
  split <;> rfl

/-- A start of a tag ends before a character that it cannot have. -/
theorem start?_append_cons (ends : isStartChar b = false) (text after : List Char) :
    start? (text ++ b :: after) =
      (start? text).map fun (form, taken, rest) => (form, taken, rest ++ b :: after) := by
  have plain {c : Char} (bang : c ≠ '!') (slash : c ≠ '/') (text : List Char) :
      start? (c :: text) = element? [] false (c :: text) := by
    simp [start?, bang, slash]
  have others := ends
  simp only [isStartChar, Bool.or_eq_false_iff, beq_eq_false_iff_ne] at others
  obtain ⟨⟨⟨-, noDash⟩, noBang⟩, noSlash⟩ := others
  rcases text with _ | ⟨c, text⟩
  · rw [List.nil_append, plain noBang noSlash]
    exact element?_append_cons ends [] false [] after
  by_cases bang : c = '!'
  · subst bang
    rcases text with _ | ⟨d, text⟩
    · simp [start?, noDash]
    by_cases dash : d = '-'
    · subst dash
      rcases text with _ | ⟨e, text⟩
      · simp [start?, noDash]
      by_cases other : e = '-'
      · subst other
        rfl
      · simp [start?, other]
    · simp [start?, dash]
  · by_cases slash : c = '/'
    · subst slash
      exact element?_append_cons ends ['/'] true text after
    · rw [List.cons_append, plain bang slash, plain bang slash]
      exact element?_append_cons ends [] false (c :: text) after

/-- No start of a tag has a blank in it. -/
theorem start?_append_blank (blank : isBlank b = true) (text after : List Char) :
    start? (text ++ b :: after) =
      (start? text).map fun (form, taken, rest) => (form, taken, rest ++ b :: after) :=
  start?_append_cons
    (by simpa using of_blanks (p := (!isStartChar ·)) (by decide +kernel) blank) text after

end TagForm

namespace OpenReference

/-- A name ends before a character that it cannot have. -/
theorem name?_append_cons {b : Char} (ends : isNameChar b = false) (unsigned : b ≠ '@')
    (text after : List Char) :
    name? (text ++ b :: after) =
      (name? text).map fun (name, rest) => (name, rest ++ b :: after) := by
  rcases text with _ | ⟨c, text⟩
  · simp [name?, unsigned]
  by_cases sign : c = '@'
  · subst sign
    simp only [List.cons_append, name?, takeWhile_append_cons_of_neg ends,
      dropWhile_append_cons_of_neg ends]
    split <;> rfl
  · simp [name?, sign]

/-- No name has a blank in it. -/
theorem name?_append_blank {b : Char} (blank : isBlank b = true) (text after : List Char) :
    name? (text ++ b :: after) =
      (name? text).map fun (name, rest) => (name, rest ++ b :: after) := by
  have ends : isNameChar b = false :=
    Bool.eq_false_iff.mpr fun named => by simp [isBlank_of_isNameChar named] at blank
  exact name?_append_cons ends (ne_of_isBlank blank (by decide)) text after

/-- An excluded body ends in a text, or goes on in what follows with the depth that is reached. -/
theorem splitExcluded_append_text (depth : Nat) (front back : List Char) :
    splitExcluded depth (front ++ back) =
      match splitExcluded depth front with
      | (taken, brace :: rest, reached) => (taken, brace :: rest ++ back, reached)
      | (_, [], reached) =>
        let (taken, rest, final) := splitExcluded reached back
        (front ++ taken, rest, final) := by
  induction front generalizing depth with
  | nil => rfl
  | cons c front ih =>
    rw [List.cons_append, splitExcluded, splitExcluded]
    split
    · rfl
    · dsimp only
      rw [ih]
      rcases splitExcluded (if c = '{' then depth + 1 else if c = '}' then depth - 1 else depth)
        front with ⟨taken, rest, reached⟩
      cases rest <;> rfl

/-- An excluded body ends before a space, or takes the space. -/
theorem splitExcluded_append_space (depth : Nat) (text after : List Char) :
    (∃ taken brace rest reached, splitExcluded depth text = (taken, brace :: rest, reached) ∧
        splitExcluded depth (text ++ ' ' :: after) =
          (taken, brace :: rest ++ ' ' :: after, reached)) ∨
      ∃ more rest reached,
        splitExcluded depth (text ++ ' ' :: after) = (text ++ ' ' :: more, rest, reached) := by
  rw [splitExcluded_append_text]
  rcases splitExcluded depth text with ⟨taken, rest, reached⟩
  cases rest with
  | cons brace rest => exact .inl ⟨taken, brace, rest, reached, rfl, rfl⟩
  | nil =>
    right
    dsimp only
    rw [splitExcluded, if_neg (by simp)]
    exact ⟨_, _, _, rfl⟩

/-- A target ends before or at a space, or takes the space. -/
theorem splitTarget_append_space (parentheses : Nat) (text after : List Char) :
    splitTarget parentheses (text ++ ' ' :: after) =
        ((splitTarget parentheses text).1, (splitTarget parentheses text).2 ++ ' ' :: after) ∨
      ∃ more rest,
        splitTarget parentheses (text ++ ' ' :: after) = (text ++ ' ' :: more, rest) := by
  induction text generalizing parentheses with
  | nil =>
    rw [List.nil_append]
    by_cases outside : parentheses = 0
    · exact .inl (by simp [splitTarget, outside, show isBlank ' ' = true from rfl])
    · right
      rw [splitTarget, if_neg (by simp [outside])]
      exact ⟨_, _, rfl⟩
  | cons c text ih =>
    rw [List.cons_append, splitTarget, splitTarget]
    split
    · exact .inl rfl
    · dsimp only
      rcases ih (if c = '(' then parentheses + 1 else if c = ')' then parentheses - 1
        else parentheses) with whole | ⟨more, rest, whole⟩
      · rw [whole]
        exact .inl rfl
      · rw [whole]
        exact .inr ⟨more, rest, rfl⟩

end OpenReference

end CommentProse
