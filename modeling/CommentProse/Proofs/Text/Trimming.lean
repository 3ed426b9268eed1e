import CommentProse.Text.Blank
import Mathlib.Data.List.Chain
import Mathlib.Data.List.TakeWhile

/-! # Blanks at the ends of texts

A text that ends visibly is its own trimmed form, and trimming is what takes a text there
(`trimEnd_append`, `endsVisibly_trimEnd`). In a single-spaced text all blanks are spaces, each
between two visible characters or at an end of the text; so both parts of such a text around a space
have no blank next to it.
-/

namespace CommentProse

/-- A scan takes the front of a text if all of it satisfies `p` and what is behind does not begin
with a character that does. -/
theorem scan_append {p : Char → Bool} {front back : List Char} (all : ∀ c ∈ front, p c = true)
    (ends : ∀ c ∈ back.head?, p c = false) :
    (front ++ back).takeWhile p = front ∧ (front ++ back).dropWhile p = back := by
  rw [List.takeWhile_append_of_pos all, List.dropWhile_append_of_pos all]
  cases back with
  | nil => simp
  | cons c back => simp [ends c rfl]

/-- What a scan leaves does not begin with a character that it takes. -/
theorem head?_dropWhile {p : Char → Bool} {text : List Char} :
    ∀ c ∈ (text.dropWhile p).head?, p c = false := by
  intro c first
  have ends := List.head?_dropWhile_not p text
  rwa [Option.mem_def.mp first] at ends

/-- The text has no blank at its start. -/
def BeginsVisibly (text : List Char) : Prop := ∀ c ∈ text.head?, isBlank c = false

/-- The text has no blank at its end. -/
def EndsVisibly (text : List Char) : Prop := ∀ c ∈ text.getLast?, isBlank c = false

theorem endsVisibly_nil : EndsVisibly [] := by simp [EndsVisibly]

theorem EndsVisibly.allBlank_eq_false {text : List Char} (ends : EndsVisibly text)
    (nonempty : text ≠ []) : allBlank text = false := by
  rw [allBlank, List.all_eq_false]
  exact ⟨text.getLast nonempty, List.getLast_mem nonempty,
    by simp [ends _ (List.getLast?_eq_some_getLast nonempty)]⟩

theorem EndsVisibly.append {text more : List Char} (ends : EndsVisibly more) (visible : more ≠ []) :
    EndsVisibly (text ++ more) := by
  intro c last
  rw [List.getLast?_append_of_ne_nil _ visible] at last
  exact ends c last

theorem BeginsVisibly.dropWhile_eq {text : List Char} (begins : BeginsVisibly text) :
    text.dropWhile isBlank = text := by
  cases text with
  | nil => rfl
  | cons c text => rw [List.dropWhile_cons_of_neg (by simp [begins c rfl])]

theorem beginsVisibly_dropWhile (text : List Char) : BeginsVisibly (text.dropWhile isBlank) :=
  head?_dropWhile

/-- Trimming takes off the blanks behind the last visible character. -/
theorem trimEnd_append {kept blanks : List Char} (ends : EndsVisibly kept)
    (blank : allBlank blanks = true) : trimEnd (kept ++ blanks) = kept := by
  induction kept with
  | nil => exact trimEnd_eq_nil.mpr blank
  | cons c kept ih =>
    rw [List.cons_append, trimEnd]
    cases kept with
    | nil => simp [trimEnd_eq_nil.mpr blank, ends c rfl]
    | cons d kept =>
      rw [ih fun e last => ends e (by rwa [List.getLast?_cons_cons])]

theorem EndsVisibly.trimEnd_eq {text : List Char} (ends : EndsVisibly text) :
    trimEnd text = text := by
  have trimmed : trimEnd (text ++ []) = text := trimEnd_append ends rfl
  rwa [List.append_nil] at trimmed

theorem EndsVisibly.trimEnd_concat_space {text : List Char} (ends : EndsVisibly text) :
    trimEnd (text ++ [' ']) = text := trimEnd_append ends rfl

theorem endsVisibly_trimEnd (text : List Char) : EndsVisibly (trimEnd text) := by
  induction text with
  | nil => exact endsVisibly_nil
  | cons c text ih =>
    rw [trimEnd]
    split
    · split
      · exact endsVisibly_nil
      · next visible => simpa [EndsVisibly] using visible
    · next nonempty =>
      have ends : EndsVisibly ([c] ++ trimEnd text) := ih.append nonempty
      exact ends

/-- What is kept of a text is a front of it. -/
theorem trimEnd_isPrefix (text : List Char) : trimEnd text <+: text := by
  induction text with
  | nil => exact List.nil_prefix
  | cons c text ih =>
    rw [trimEnd]
    split
    · split
      · exact List.nil_prefix
      · exact List.cons_prefix_cons.mpr ⟨rfl, List.nil_prefix⟩
    · exact List.cons_prefix_cons.mpr ⟨rfl, ih⟩

/-- Trimming takes off any blanks at the end first. -/
theorem trimEnd_append_of_allBlank (front : List Char) {blanks : List Char}
    (blank : allBlank blanks = true) : trimEnd (front ++ blanks) = trimEnd front := by
  induction front with
  | nil => exact trimEnd_eq_nil.mpr blank
  | cons c front ih => rw [List.cons_append, trimEnd, ih, trimEnd]

/-- Trimming does not go on behind a visible character. -/
theorem trimEnd_append_of_visible (front : List Char) {text : List Char}
    (visible : allBlank text = false) : trimEnd (front ++ text) = front ++ trimEnd text := by
  have nonempty : trimEnd text ≠ [] := by simp [trimEnd_eq_nil, visible]
  induction front with
  | nil => rfl
  | cons c front ih =>
    rw [List.cons_append, trimEnd, ih]
    split
    · next empty => exact absurd (List.append_eq_nil_iff.mp empty).2 nonempty
    · rfl

/-- What trimming takes off is blank. -/
theorem exists_eq_trimEnd_append (text : List Char) :
    ∃ blanks, text = trimEnd text ++ blanks ∧ allBlank blanks = true := by
  obtain ⟨blanks, whole⟩ := trimEnd_isPrefix text
  refine ⟨blanks, whole.symm, ?_⟩
  by_contra visible
  have kept := trimEnd_append_of_visible (trimEnd text) (Bool.eq_false_iff.mpr visible)
  rw [whole, List.self_eq_append_right, trimEnd_eq_nil] at kept
  exact visible kept

theorem trim_eq_nil {text : List Char} : trim text = [] ↔ allBlank text = true := by
  rw [trim, trimStart, trimEnd_eq_nil]
  have whole := List.takeWhile_append_dropWhile (p := isBlank) (l := text)
  have indent : allBlank (text.takeWhile isBlank) = true :=
    List.all_eq_true.mpr fun c member => List.mem_takeWhile_imp member
  have parts : allBlank text = (allBlank (text.takeWhile isBlank) &&
      allBlank (text.dropWhile isBlank)) := by
    rw [allBlank, allBlank, allBlank, ← List.all_append, whole]
  rw [parts, indent, Bool.true_and]

/-! ### Single spaces -/

/-- All blanks of the text are spaces, and no two of them are adjacent. -/
structure SingleSpaced (text : List Char) : Prop where
  space : ∀ c ∈ text, isBlank c = true → c = ' '
  apart : text.IsChain fun c next => ¬(isBlank c = true ∧ isBlank next = true)

namespace SingleSpaced

theorem part (left middle right : List Char) (single : SingleSpaced (left ++ middle ++ right)) :
    SingleSpaced middle where
  space := fun c member => single.space c (by simp [member])
  apart := single.apart.left_of_append.right_of_append

variable {text after : List Char}

/-- No blank stands next to a space. -/
theorem around (single : SingleSpaced (text ++ ' ' :: after)) :
    EndsVisibly text ∧ BeginsVisibly after := by
  obtain ⟨-, behind, before⟩ := List.isChain_append.mp single.apart
  constructor
  · intro c last
    simpa [show isBlank ' ' = true from rfl] using before c last ' ' rfl
  · intro c first
    simpa [show isBlank ' ' = true from rfl] using (List.isChain_cons.mp behind).1 c first

theorem dropWhile (single : SingleSpaced text) : SingleSpaced (text.dropWhile isBlank) := by
  rw [← List.takeWhile_append_dropWhile (p := isBlank) (l := text),
    ← List.append_nil (text.dropWhile isBlank), ← List.append_assoc] at single
  exact single.part _ _ _

/-- A single-spaced text ends visibly or in one space. -/
theorem endsVisibly_or (single : SingleSpaced text) :
    EndsVisibly text ∨ ∃ kept, text = kept ++ [' '] ∧ EndsVisibly kept := by
  rcases List.eq_nil_or_concat' text with rfl | ⟨kept, last, rfl⟩
  · exact .inl endsVisibly_nil
  · by_cases blank : isBlank last = true
    · obtain rfl := single.space last (by simp) blank
      exact .inr ⟨kept, rfl, single.around.1⟩
    · exact .inl (by simpa [EndsVisibly] using blank)

/-- Trimming a single-spaced text trims its part before a space at the start and that behind it at
the end. -/
theorem trim_eq (single : SingleSpaced (text ++ ' ' :: after)) (visible : text ≠ [])
    (visibleAfter : allBlank after = false) :
    trim (text ++ ' ' :: after) = trim text ++ ' ' :: trim after := by
  obtain ⟨ends, begins⟩ := single.around
  have nonempty : text.dropWhile isBlank ≠ [] := by
    rw [ne_eq, List.dropWhile_eq_nil_iff, ← List.all_eq_true]
    exact Bool.eq_false_iff.mp (ends.allBlank_eq_false visible)
  have keeps : EndsVisibly (text.dropWhile isBlank) := by
    intro c last
    apply ends c
    rw [← List.takeWhile_append_dropWhile (p := isBlank) (l := text),
      List.getLast?_append_of_ne_nil _ nonempty]
    exact last
  rw [trim, trim, trim, trimStart, trimStart, trimStart, keeps.trimEnd_eq, begins.dropWhile_eq,
    List.dropWhile_append, if_neg (by simpa using nonempty), List.append_cons,
    trimEnd_append_of_visible _ visibleAfter, List.append_assoc]
  rfl

end SingleSpaced

end CommentProse
