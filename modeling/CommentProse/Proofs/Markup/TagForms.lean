import CommentProse.Proofs.Markup.Elements
import CommentProse.Proofs.Text.Trimming
import Mathlib

/-! # What tags look like

A tag is read character by character, from its start behind the `<` to the `>` that ends it. Here
its parts are told by what is written instead: the start by the characters that it is made of and
the one that follows (`TagForm.start?_eq_some_iff`), the end as the first `>` outside quotes
(`OpenTag.splitEnd?_eq_some_iff`), a tag that closes itself by a slash before that `>`
(`OpenTag.isSelfClosing_iff_exists`), and elements of one name as those of which the written names
differ in the case of ASCII letters only (`TagForm.nameOf_eq_iff`), as are the names under which the
settings list it (`TagForm.names_nameOf_iff`). So the tags that are matched by name and count are
those that are written like one (`Chunk.MakeUp.exists_written`).
-/

namespace CommentProse

/-! ### Names up to case -/

/-- The same character, or the two cases of one ASCII letter. -/
def SameUpToCase (c d : Char) : Prop :=
  c = d ∨ (c.isUpper = true ∧ d.toNat = c.toNat + 32) ∨ (d.isUpper = true ∧ c.toNat = d.toNat + 32)

private theorem isUpper_iff {c : Char} : c.isUpper = true ↔ 65 ≤ c.toNat ∧ c.toNat ≤ 90 := by
  rw [Char.isUpper, decide_eq_true_eq]
  rfl

private theorem toNat_toLower (c : Char) :
    c.toLower.toNat = if 65 ≤ c.toNat ∧ c.toNat ≤ 90 then c.toNat + 32 else c.toNat := by
  by_cases upper : c.isUpper = true
  · have bounds := isUpper_iff.mp upper
    have valid : (c.toNat + 32).isValidChar := .inl (by omega)
    rw [if_pos bounds, Char.toLower_eq_of_isUpper upper, Char.toNat_ofNat, if_pos valid]
  · rw [if_neg (isUpper_iff.not.mp upper), Char.toLower_eq_of_not_isUpper upper]

theorem toLower_eq_toLower_iff {c d : Char} : c.toLower = d.toLower ↔ SameUpToCase c d := by
  have codes : c.toLower = d.toLower ↔ c.toLower.toNat = d.toLower.toNat := Char.toNat_inj.symm
  have same : c = d ↔ c.toNat = d.toNat := Char.toNat_inj.symm
  rw [codes, SameUpToCase, same, toNat_toLower, toNat_toLower, isUpper_iff, isUpper_iff]
  split <;> split <;> omega

/-- The same characters up to the case of ASCII letters. -/
def NamedAlike (name other : List Char) : Prop := List.Forall₂ SameUpToCase name other

theorem map_toLower_eq_iff {name other : List Char} :
    name.map Char.toLower = other.map Char.toLower ↔ NamedAlike name other := by
  rw [NamedAlike, ← List.forall₂_eq_eq_eq, List.forall₂_map_left_iff, List.forall₂_map_right_iff]
  simp only [toLower_eq_toLower_iff]

/-! ### Starts -/

namespace TagForm

/-- The name of the element that is written so. -/
def nameOf (written : List Char) : String := String.ofList (written.map Char.toLower)

/-- Elements have one name if they are written alike up to the case of ASCII letters. -/
theorem nameOf_eq_iff {written other : List Char} :
    nameOf written = nameOf other ↔ NamedAlike written other := by
  rw [nameOf, nameOf, String.ofList_inj, map_toLower_eq_iff]

/-- The settings list an element if they list a name that is written like it. -/
theorem names_nameOf_iff {elements : List String} {written : List Char} :
    Settings.names elements (nameOf written) = true ↔
      ∃ element ∈ elements, NamedAlike element.toList written := by
  have again : (written.map Char.toLower).map Char.toLower = written.map Char.toLower := by
    rw [List.map_map]
    exact List.map_congr_left fun c _ => c.toLower_toLower_eq_toLower
  simp only [Settings.names, List.any_eq_true, beq_iff_eq, ← String.toList_inj, String.toLower,
    String.toList_map, nameOf, String.toList_ofList, again, map_toLower_eq_iff]

/-- A character that goes on a name. -/
def IsNameChar (c : Char) : Prop := c.isAlphanum = true ∨ c = '-'

/-- The characters behind `<` with which a tag of a form starts, before this rest. -/
inductive WrittenAs : TagForm → List Char → List Char → Prop
  | comment (rest : List Char) : WrittenAs .comment ['!', '-', '-'] rest
  | declaration {rest : List Char} (other : ¬['-', '-'] <+: rest) :
      WrittenAs .declaration ['!'] rest
  /-- A name begins with a letter, and goes on as far as it can. -/
  | element (closing : Bool) {letter : Char} {name rest : List Char}
      (begins : letter.isAlpha = true) (inside : ∀ c ∈ name, IsNameChar c)
      (ends : ∀ c ∈ rest.head?, ¬IsNameChar c) :
      WrittenAs (.element (nameOf (letter :: name)) closing)
        ((if closing then ['/'] else []) ++ letter :: name) rest

private theorem isNameChar_iff {c : Char} :
    (c.isAlphanum || c == '-') = true ↔ IsNameChar c := by
  rw [IsNameChar, Bool.or_eq_true, beq_iff_eq]

private theorem element?_eq_some_iff {marker text taken rest : List Char} {closing : Bool}
    {form : TagForm} : element? marker closing text = some (form, taken, rest) ↔
      ∃ letter name, letter.isAlpha = true ∧ (∀ c ∈ name, IsNameChar c) ∧
        (∀ c ∈ rest.head?, ¬IsNameChar c) ∧ form = .element (nameOf (letter :: name)) closing ∧
        taken = marker ++ letter :: name ∧ text = letter :: name ++ rest := by
  have first {letter : Char} (begins : letter.isAlpha = true) :
      (letter.isAlphanum || letter == '-') = true := by simp [Char.isAlphanum, begins]
  constructor
  · intro read
    rw [element?] at read
    split at read
    · next begins =>
      cases text with
      | nil => cases begins
      | cons letter text =>
        have begins : letter.isAlpha = true := begins
        simp only [List.takeWhile_cons, List.dropWhile_cons, first begins, if_true] at read
        cases read
        refine ⟨letter, _, begins, fun c member => ?_, fun c behind => ?_, rfl, rfl, ?_⟩
        · exact isNameChar_iff.mp
            (List.mem_takeWhile_imp (p := fun c => c.isAlphanum || c == '-') member)
        · rw [← isNameChar_iff, head?_dropWhile c behind]
          exact Bool.false_ne_true
        · rw [List.cons_append, List.takeWhile_append_dropWhile]
    · cases read
  · rintro ⟨letter, name, begins, inside, ends, rfl, rfl, rfl⟩
    have all : ∀ c ∈ letter :: name, (c.isAlphanum || c == '-') = true :=
      List.forall_mem_cons.mpr ⟨first begins, fun c member => isNameChar_iff.mpr (inside c member)⟩
    obtain ⟨taken, left⟩ := scan_append all fun c behind =>
      Bool.eq_false_iff.mpr (isNameChar_iff.not.mpr (ends c behind))
    rw [element?, if_pos (by simpa using begins), taken, left]
    rfl

/-- What is read as the start of a tag is what is written like one. -/
theorem start?_eq_some_iff {text taken rest : List Char} {form : TagForm} :
    start? text = some (form, taken, rest) ↔ taken ++ rest = text ∧ WrittenAs form taken rest := by
  constructor
  · intro read
    refine ⟨append_of_start? read, ?_⟩
    rw [start?.eq_def] at read
    split at read
    · cases read
      exact .comment _
    · next others =>
      cases read
      refine .declaration ?_
      rintro ⟨comment, rfl⟩
      exact others comment rfl
    · obtain ⟨letter, name, begins, inside, ends, rfl, rfl, -⟩ := element?_eq_some_iff.mp read
      exact .element true begins inside ends
    · obtain ⟨letter, name, begins, inside, ends, rfl, rfl, -⟩ := element?_eq_some_iff.mp read
      exact .element false begins inside ends
  · rintro ⟨rfl, written⟩
    cases written with
    | comment => rfl
    | declaration other =>
      rw [List.singleton_append, start?.eq_def]
      split
      · next comment same => exact absurd ⟨comment, (List.cons.inj same).2.symm⟩ other
      · next same => cases same; rfl
      · next same => cases same
      · next declared _ => exact absurd rfl (declared rest)
    | @element closing letter name rest begins inside ends =>
      have named (marker : List Char) : element? marker closing (letter :: name ++ rest) =
          some (.element (nameOf (letter :: name)) closing, marker ++ letter :: name, rest) :=
        element?_eq_some_iff.mpr ⟨letter, name, begins, inside, ends, rfl, rfl, rfl⟩
      cases closing with
      | true => exact named ['/']
      | false =>
        change start? (letter :: name ++ rest) = _
        rw [start?.eq_def]
        split
        · next same =>
          obtain ⟨rfl, -⟩ := List.cons.inj same
          cases begins
        · next same =>
          obtain ⟨rfl, -⟩ := List.cons.inj same
          cases begins
        · next same =>
          obtain ⟨rfl, -⟩ := List.cons.inj same
          cases begins
        · exact named []

end TagForm

/-! ### Ends -/

namespace OpenTag

/-- A `>` behind this text stands outside quotes, and no `>` in the text does. -/
structure ReachesEnd (quote : Option Char) (text : List Char) : Prop where
  unquoted : text.foldl quoteAfter quote = none
  first : ∀ before after, text = before ++ '>' :: after → before.foldl quoteAfter quote ≠ none

/-- A tag ends with the first `>` outside quotes. -/
theorem splitEnd?_eq_some_iff {quote : Option Char} {text taken rest : List Char} :
    splitEnd? quote text = some (taken, rest) ↔
      ∃ front, taken = front ++ ['>'] ∧ text = taken ++ rest ∧ ReachesEnd quote front := by
  induction text generalizing quote taken with
  | nil =>
    constructor
    · intro split
      cases split
    · rintro ⟨front, rfl, whole, -⟩
      simp at whole
  | cons c text ih =>
    rw [splitEnd?]
    by_cases ends : quote = none ∧ c = '>'
    · obtain ⟨rfl, rfl⟩ := ends
      rw [if_pos ⟨rfl, rfl⟩]
      constructor
      · intro split
        cases split
        exact ⟨[], rfl, rfl, rfl, by simp⟩
      · rintro ⟨front, rfl, whole, reaches⟩
        cases front with
        | nil => rw [(List.cons.inj whole).2]; rfl
        | cons d front =>
          obtain ⟨rfl, -⟩ := List.cons.inj whole
          exact absurd rfl (reaches.first [] front rfl)
    · rw [if_neg ends, Option.map_eq_some_iff]
      constructor
      · rintro ⟨⟨later, behind⟩, split, same⟩
        cases same
        obtain ⟨front, rfl, rfl, reaches⟩ := ih.mp split
        refine ⟨c :: front, rfl, rfl, reaches.unquoted, ?_⟩
        intro before after parts
        cases before with
        | nil =>
          obtain ⟨rfl, -⟩ := List.cons.inj parts
          exact fun open_ => ends ⟨open_, rfl⟩
        | cons d before =>
          obtain ⟨rfl, later⟩ := List.cons.inj parts
          exact reaches.first before after later
      · rintro ⟨front, rfl, whole, reaches⟩
        cases front with
        | nil =>
          obtain ⟨rfl, -⟩ := List.cons.inj whole
          exact absurd ⟨reaches.unquoted, rfl⟩ ends
        | cons d front =>
          obtain ⟨rfl, later⟩ := List.cons.inj whole
          refine ⟨(front ++ ['>'], rest), ih.mpr ⟨front, rfl, later, reaches.unquoted, ?_⟩, rfl⟩
          intro before after parts
          exact reaches.first (c :: before) after (congrArg (c :: ·) parts)

/-- An element's tag closes itself if a slash stands before its `>`, with only blanks between. -/
theorem isSelfClosing_iff_exists {front : List Char} :
    isSelfClosing (front ++ ['>']) = true ↔
      ∃ before blanks, front = before ++ '/' :: blanks ∧ allBlank blanks = true := by
  rw [isSelfClosing, List.dropLast_concat, beq_iff_eq]
  constructor
  · intro slash
    obtain ⟨before, kept⟩ := List.getLast?_eq_some_iff.mp slash
    obtain ⟨blanks, whole, blank⟩ := exists_eq_trimEnd_append front
    refine ⟨before, blanks, ?_, blank⟩
    rw [whole, kept, List.append_assoc, List.singleton_append]
  · rintro ⟨before, blanks, rfl, blank⟩
    have visible : EndsVisibly (before ++ ['/']) :=
      EndsVisibly.append (by simp [EndsVisibly]; decide) (by simp)
    have kept := trimEnd_append visible blank
    rw [List.append_cons, kept, List.getLast?_concat]

end OpenTag

/-! ### Complete tags -/

/-- The start of a tag among the parts of a text is written in the form of the tag. Unless it is a
comment, it ends with the first `>` outside quotes, and it closes itself by a slash before that. -/
theorem Chunk.MakeUp.exists_written {text front back : List Char} {form : TagForm}
    {chunks : List Chunk} (made : MakeUp text (.tag form front back :: chunks)) :
    ∃ taken rest, front = '<' :: taken ∧ text = front ++ back ++ rest ∧
      form.WrittenAs taken (back ++ rest) ∧
      (form ≠ .comment → ∃ inside, back = inside ++ ['>'] ∧ OpenTag.ReachesEnd none inside ∧
        (OpenTag.isSelfClosing back = true ↔
          ∃ before blanks, inside = before ++ '/' :: blanks ∧ allBlank blanks = true)) := by
  cases made with
  | @tag _ text taken inside _ rest _ starts closes later =>
    obtain ⟨whole, written⟩ := TagForm.start?_eq_some_iff.mp starts
    have parts := OpenTag.append_of_close? closes
    refine ⟨taken, rest, rfl, ?_, parts ▸ written, fun noComment => ?_⟩
    · rw [← whole, ← parts]
      simp
    · have ends : OpenTag.splitEnd? none inside = some (back, rest) := by
        cases form with
        | comment => exact absurd rfl noComment
        | declaration => exact closes
        | element name closing => exact closes
      obtain ⟨front, rfl, -, reaches⟩ := OpenTag.splitEnd?_eq_some_iff.mp ends
      exact ⟨front, rfl, reaches, OpenTag.isSelfClosing_iff_exists⟩

end CommentProse
