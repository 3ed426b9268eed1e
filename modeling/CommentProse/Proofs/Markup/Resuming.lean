import CommentProse.Proofs.Markup.Breaking
import CommentProse.Proofs.Text.Trimming

/-! # Resuming at a blank

A text can be read in two parts, the second with what is open behind the first, if no two visible
characters meet at the cut. No name and no delimiter is cut then, so a step on the whole text either
ends in the front as the step on the front does, or goes on behind it as the next step does
(`OpenMarkup.step_continues`); what is read is the same up to joining (`OpenMarkup.read_append`).
Two things are forgotten at the end of a line and have to be excluded: how many parentheses are open
in a target, and whether a slash stood before the blanks at the end, which would make a tag close
itself.
-/

namespace CommentProse

/-! ### The cut -/

/-- No two visible characters meet where `back` follows `front`. -/
def MeetAtBlank (front back : List Char) : Prop :=
  ∀ c ∈ front.getLast?, ∀ d ∈ back.head?, isBlank c = true ∨ isBlank d = true

/-- The last visible character is no slash. -/
def EndsWithoutSlash (text : List Char) : Prop := (trimEnd text).getLast? ≠ some '/'

instance (front back : List Char) : Decidable (MeetAtBlank front back) :=
  decidable_of_iff (front.getLast?.all fun c => back.head?.all fun d => isBlank c || isBlank d)
    (by simp [MeetAtBlank, Option.all_eq_true])

instance (text : List Char) : Decidable (EndsWithoutSlash text) :=
  inferInstanceAs (Decidable ((trimEnd text).getLast? ≠ some '/'))

variable {front back text : List Char}

theorem MeetAtBlank.of_append (meet : MeetAtBlank (text ++ front) back) :
    MeetAtBlank front back := by
  intro c last
  have nonempty : front ≠ [] := by
    rintro rfl
    cases last
  exact meet c (by rwa [List.getLast?_append_of_ne_nil _ nonempty])

theorem endsWithoutSlash_append_of_allBlank (front : List Char) (blank : allBlank text = true) :
    EndsWithoutSlash (front ++ text) ↔ EndsWithoutSlash front := by
  rw [EndsWithoutSlash, trimEnd_append_of_allBlank _ blank, EndsWithoutSlash]

theorem endsWithoutSlash_append_of_visible (front : List Char) (visible : allBlank text = false) :
    EndsWithoutSlash (front ++ text) ↔ EndsWithoutSlash text := by
  have nonempty : trimEnd text ≠ [] := by simp [trimEnd_eq_nil, visible]
  rw [EndsWithoutSlash, trimEnd_append_of_visible _ visible,
    List.getLast?_append_of_ne_nil _ nonempty, EndsWithoutSlash]

theorem endsWithoutSlash_of_allBlank (blank : allBlank text = true) : EndsWithoutSlash text := by
  rw [EndsWithoutSlash, trimEnd_eq_nil.mpr blank]
  nofun

theorem EndsWithoutSlash.of_append (noSlash : EndsWithoutSlash (text ++ front)) :
    EndsWithoutSlash front := by
  by_cases blank : allBlank front = true
  · exact endsWithoutSlash_of_allBlank blank
  · exact (endsWithoutSlash_append_of_visible text (Bool.eq_false_iff.mpr blank)).mp noSlash

/-- A blank stands on one side of the cut, or nothing stands behind it. -/
def BlankAtCut (front back : List Char) : Prop :=
  back = [] ∨ (∃ b after, back = b :: after ∧ isBlank b = true) ∨
    ∃ before b, front = before ++ [b] ∧ isBlank b = true

theorem MeetAtBlank.blankAtCut (meet : MeetAtBlank front back) (nonempty : front ≠ []) :
    BlankAtCut front back := by
  rcases back with _ | ⟨d, after⟩
  · exact .inl rfl
  · have last := List.getLast?_eq_some_getLast nonempty
    rcases meet _ last d rfl with blank | blank
    · exact .inr (.inr ⟨front.dropLast, _, (List.dropLast_concat_getLast nonempty).symm, blank⟩)
    · exact .inr (.inl ⟨d, after, rfl, blank⟩)

/-- A visible character at the start is not the blank at the cut. -/
theorem BlankAtCut.of_cons {c : Char} (visible : isBlank c = false)
    (cut : BlankAtCut (c :: text) back) : BlankAtCut text back := by
  rcases cut with none | first | ⟨before, b, parts, blank⟩
  · exact .inl none
  · exact .inr (.inl first)
  · cases before with
    | nil =>
      obtain ⟨rfl, -⟩ := List.cons_eq_cons.mp parts
      rw [visible] at blank
      cases blank
    | cons d before =>
      obtain ⟨-, parts⟩ := List.cons_eq_cons.mp parts
      exact .inr (.inr ⟨before, b, parts, blank⟩)

/-- A scan that no blank is part of is not changed by what follows behind a blank. -/
theorem BlankAtCut.scan_append {β : Type} {scan : List Char → Option β}
    (leave : List Char → β → β) (cut : BlankAtCut front back)
    (leave_nil : ∀ found, leave [] found = found)
    (leave_append : ∀ some more found, leave more (leave some found) = leave (some ++ more) found)
    (ends : ∀ b, isBlank b = true → ∀ text after,
      scan (text ++ b :: after) = (scan text).map (leave (b :: after))) :
    scan (front ++ back) = (scan front).map (leave back) := by
  rcases cut with rfl | ⟨b, after, rfl, blank⟩ | ⟨before, b, rfl, blank⟩
  · rw [List.append_nil, funext leave_nil]
    exact Option.map_id'.symm
  · exact ends b blank front after
  · rw [List.append_assoc, List.singleton_append, ends b blank, ends b blank, Option.map_map]
    congr 1
    funext found
    exact (leave_append [b] back found).symm

/-! ### Scans -/

theorem TagForm.start?_append (cut : BlankAtCut front back) :
    start? (front ++ back) =
      (start? front).map fun (form, taken, rest) => (form, taken, rest ++ back) :=
  cut.scan_append
    (fun more (found : TagForm × List Char × List Char) => (found.1, found.2.1, found.2.2 ++ more))
    (by simp) (by simp) fun _ blank => start?_append_blank blank

theorem OpenReference.name?_append (cut : BlankAtCut front back) :
    name? (front ++ back) = (name? front).map fun (name, rest) => (name, rest ++ back) :=
  cut.scan_append (fun more (found : List Char × List Char) => (found.1, found.2 ++ more))
    (by simp) (by simp) fun _ blank => name?_append_blank blank

section Delimiters

variable {delimiter : List Char}

/-- A delimiter of visible characters is found before the cut or behind it. -/
theorem splitBefore?_append_of_meet (visible : ∀ c ∈ delimiter, isBlank c = false)
    (nonempty : delimiter ≠ []) (meet : MeetAtBlank front back) :
    splitBefore? delimiter (front ++ back) =
      match splitBefore? delimiter front with
      | some (taken, rest) => some (taken, rest ++ back)
      | none => (splitBefore? delimiter back).map fun (taken, rest) => (front ++ taken, rest) := by
  have outside {b : Char} (blank : isBlank b = true) : b ∉ delimiter :=
    fun member => by simp [visible b member] at blank
  have empty : splitBefore? delimiter [] = none := by simp [splitBefore?, nonempty]
  by_cases nothing : front = []
  · subst nothing
    simp [empty]
  rcases meet.blankAtCut nothing with rfl | ⟨b, after, rfl, blank⟩ | ⟨before, b, rfl, blank⟩
  · rw [List.append_nil, empty]
    cases splitBefore? delimiter front <;> simp
  · exact splitBefore?_append_cons (outside blank) nonempty front after
  · have pass (after : List Char) : splitBefore? delimiter (b :: after) =
        (splitBefore? delimiter after).map fun (taken, rest) => (b :: taken, rest) := by
      refine if_neg fun starts => ?_
      obtain ⟨first, others, rfl⟩ := List.exists_cons_of_ne_nil nonempty
      have same : first = b := (List.cons_prefix_cons.mp (List.isPrefixOf_iff_prefix.mp starts)).1
      exact outside blank (same ▸ List.mem_cons_self)
    rw [List.append_assoc, List.singleton_append,
      splitBefore?_append_cons (outside blank) nonempty,
      splitBefore?_append_cons (outside blank) nonempty, pass, pass, empty]
    cases splitBefore? delimiter before with
    | some parts => simp
    | none => simp [Option.map_map, Function.comp_def]

end Delimiters

namespace OpenTag

/-- The end of a tag is found before the cut, or behind it with the tag that is carried over. -/
theorem close?_append (tag : OpenTag) (meet : MeetAtBlank front back) :
    tag.close? (front ++ back) =
      match tag.close? front with
      | some (taken, rest) => some (taken, rest ++ back)
      | none =>
        ((tag.carry front).close? back).map fun (taken, rest) => (front ++ taken, rest) := by
  obtain ⟨start, form, quote, divides⟩ := tag
  cases form with
  | comment =>
    have visible : ['-', '-', '>'].all (!isBlank ·) = true := by decide
    refine splitThrough?_append_of_splitBefore?
      (splitBefore?_append_of_meet (fun c member => ?_) (by decide) meet)
    simpa using List.all_eq_true.mp visible c member
  | declaration => exact splitEnd?_append quote front back
  | element name closing => exact splitEnd?_append quote front back

theorem carry_append (tag : OpenTag) (front back : List Char) :
    tag.carry (front ++ back) = (tag.carry front).carry back := by
  obtain ⟨start, form, quote, divides⟩ := tag
  cases form <;> simp [carry]

theorem divides_carry (tag : OpenTag) (text : List Char) :
    (tag.carry text).divides = tag.divides := by
  obtain ⟨start, form, quote, divides⟩ := tag
  cases form <;> rfl

theorem after_carry (settings : Settings) (tag : OpenTag) (text : List Char) (selfClosing : Bool)
    (current : Option OpenElement) :
    OpenElement.after settings (tag.carry text) selfClosing current =
      OpenElement.after settings tag selfClosing current := by
  obtain ⟨start, form, quote, divides⟩ := tag
  cases form <;> rfl

/-- A tag closes itself if a slash stands before its end, with nothing but blanks between. -/
theorem isSelfClosing_iff (text : List Char) :
    isSelfClosing text = true ↔ ¬EndsWithoutSlash text.dropLast := by
  simp [isSelfClosing, EndsWithoutSlash]

/-- Whether a tag closes itself is told by what stands behind the cut, unless only blanks do. -/
theorem isSelfClosing_append (noSlash : EndsWithoutSlash front) (nonempty : back ≠ []) :
    isSelfClosing (front ++ back) = isSelfClosing back := by
  rw [Bool.eq_iff_iff, isSelfClosing_iff, isSelfClosing_iff,
    List.dropLast_append_of_ne_nil nonempty]
  by_cases blank : allBlank back.dropLast = true
  · simp [endsWithoutSlash_append_of_allBlank front blank, noSlash,
      endsWithoutSlash_of_allBlank blank]
  · rw [endsWithoutSlash_append_of_visible _ (Bool.eq_false_iff.mpr blank)]

end OpenTag

/-! ### Steps -/

/-- What becomes of a step on `front` when the text goes on with `d :: after`. -/
inductive Advance.Continues (settings : Settings) (place : Nat) (d : Char) (after : List Char)
    (whole part : Advance) : Prop where
  /-- The step ends where it ended. -/
  | ends (same : whole = { part with rest := part.rest ++ d :: after })
  /-- The step took all of the text, and goes on as the next step does. -/
  | goesOn (role : Role) (divides : Bool) (first second : List Char) (others : List Piece)
      (done : part.rest = []) (took : part.pieces = [⟨role, divides, first⟩])
      (next : part.markup.step settings place d after =
        ⟨⟨role, divides, second⟩ :: others, whole.markup, whole.rest⟩)
      (together : whole.pieces = ⟨role, divides, first ++ second⟩ :: others)

namespace OpenMarkup

variable {settings : Settings} {markup : OpenMarkup} {d : Char} {after : List Char}

theorem stepTag_continues (meet : MeetAtBlank text (d :: after)) (noSlash : EndsWithoutSlash text)
    (tag : OpenTag) (place : Nat) :
    Advance.Continues settings place d after (markup.stepTag settings tag (text ++ d :: after))
      (markup.stepTag settings tag text) := by
  have closes := tag.close?_append meet
  rw [stepTag, stepTag]
  cases front : tag.close? text with
  | some parts =>
    rw [front] at closes
    rw [closes]
    exact .ends rfl
  | none =>
    rw [front] at closes
    rw [closes]
    have step : step settings { markup with tag := some (tag.carry text) } place d after =
        stepTag settings { markup with tag := some (tag.carry text) } (tag.carry text)
          (d :: after) := rfl
    cases behind : (tag.carry text).close? (d :: after) with
    | some parts =>
      refine .goesOn .markup tag.divides text parts.1 [] rfl rfl ?_ rfl
      rw [step, stepTag, behind]
      simp only [OpenTag.divides_carry, OpenTag.after_carry, Option.map_some,
        OpenTag.isSelfClosing_append noSlash (OpenTag.ne_nil_of_close? behind)]
    | none =>
      refine .goesOn .markup tag.divides text (d :: after) [] rfl rfl ?_ rfl
      rw [step, stepTag, behind]
      simp only [OpenTag.divides_carry, OpenTag.carry_append, Option.map_none]

theorem stepExcluded_continues (noTag : markup.tag = .none) (text : List Char)
    {reference : OpenReference}
    (excluded : reference.mode = .excluded) (outer : List OpenReference) (place : Nat) :
    Advance.Continues settings place d after
      (markup.stepExcluded settings reference outer (text ++ d :: after))
      (markup.stepExcluded settings reference outer text) := by
  have body := OpenReference.splitExcluded_append_text reference.depth text (d :: after)
  have all := OpenReference.splitExcluded_append reference.depth text
  rw [stepExcluded, stepExcluded, body]
  rcases front : OpenReference.splitExcluded reference.depth text with ⟨taken, rest, reached⟩
  rw [front] at all
  cases rest with
  | cons brace rest => exact .ends rfl
  | nil =>
    obtain rfl : taken = text := by simpa using all
    have step : step settings
        { markup with references := { reference with depth := reached } :: outer } place d after =
        stepExcluded settings
          { markup with references := { reference with depth := reached } :: outer }
          { reference with depth := reached } outer (d :: after) := by
      simp only [OpenMarkup.step, noTag, excluded]
    dsimp only
    rcases behind : OpenReference.splitExcluded reached (d :: after) with ⟨more, rest, final⟩
    cases rest with
    | nil =>
      refine .goesOn .argument false taken more [] rfl rfl ?_ rfl
      rw [step, stepExcluded, behind]
    | cons brace rest =>
      refine .goesOn .argument false taken more _ rfl rfl ?_ rfl
      rw [step, stepExcluded, behind]

theorem stepText_continues (resumes : markup.Resumes) (c : Char) (place : Nat) :
    Advance.Continues settings place d after (markup.stepText c (text ++ d :: after))
      (markup.stepText c text) := by
  by_cases plain : ∀ e ∈ text, (!isMarkupChar e) = true
  · have taken : (text ++ d :: after).takeWhile (!isMarkupChar ·) =
        text ++ (d :: after).takeWhile (!isMarkupChar ·) := List.takeWhile_append_of_pos plain
    have rest : (text ++ d :: after).dropWhile (!isMarkupChar ·) =
        (d :: after).dropWhile (!isMarkupChar ·) := List.dropWhile_append_of_pos plain
    have all := List.takeWhile_eq_self_iff.mpr plain
    have none := List.dropWhile_eq_nil_iff.mpr plain
    cases special : isMarkupChar d with
    | true =>
      apply Advance.Continues.ends
      simp [stepText, taken, rest, all, none, special]
    | false =>
      refine .goesOn _ false (c :: text) (d :: after.takeWhile (!isMarkupChar ·)) [] none
        (by rw [stepText, all]) ?_ ?_
      · rw [stepText, resumes.step_eq_stepText settings after place special]
        simp [stepText, rest, special]
      · simp [stepText, taken, special]
  · obtain ⟨e, member, ends⟩ : ∃ e ∈ text, (!isMarkupChar e) = false := by simpa using plain
    obtain ⟨taken, rest⟩ := takeWhile_append_of_exists (p := (!isMarkupChar ·)) ⟨e, member, ends⟩
      (d :: after)
    rw [stepText, stepText, taken, rest]
    exact .ends rfl

theorem stepRunning_continues (resumes : markup.Resumes) {c : Char}
    (meet : MeetAtBlank (c :: text) (d :: after)) (place next : Nat) :
    Advance.Continues settings next d after
      (markup.stepRunning settings place c (text ++ d :: after))
      (markup.stepRunning settings place c text) := by
  have cut (visible : isBlank c = false) : BlankAtCut text (d :: after) :=
    (meet.blankAtCut (by simp)).of_cons visible
  rw [stepRunning, stepRunning]
  split
  · next less =>
    rw [stepLess, stepLess, TagForm.start?_append (cut (by rw [less]; decide))]
    cases TagForm.start? text with
    | none => exact stepText_continues resumes '<' next
    | some parts => exact .ends rfl
  · split
    · next brace =>
      rw [stepOpen, stepOpen, OpenReference.name?_append (cut (by rw [brace]; decide))]
      cases OpenReference.name? text with
      | none => exact stepText_continues (resumes.withDepth (· + 1)) '{' next
      | some parts => exact .ends rfl
    · split
      · obtain ⟨tag, references, verbatim, reach⟩ := markup
        cases references with
        | nil => exact stepText_continues resumes '}' next
        | cons reference outer =>
          rw [stepClose, stepClose]
          dsimp only
          split
          · exact .ends rfl
          · exact stepText_continues (resumes.withDepth (· - 1)) '}' next
      · exact stepText_continues resumes c next

/-- No open reference waits for its target. -/
def AwaitsNoTarget (markup : OpenMarkup) : Prop :=
  ∀ reference ∈ markup.references, reference.mode ≠ .target

/-- A step on a text that goes on behind a blank, and the step on its front. -/
theorem step_continues (settings : Settings) (settled : markup.AwaitsNoTarget) {c : Char}
    (meet : MeetAtBlank (c :: text) (d :: after)) (noSlash : EndsWithoutSlash (c :: text))
    (place next : Nat) :
    Advance.Continues settings next d after (markup.step settings place c (text ++ d :: after))
      (markup.step settings place c text) := by
  obtain ⟨tag, references, verbatim, reach⟩ := markup
  cases tag with
  | some tag => exact stepTag_continues meet noSlash tag next
  | none =>
    cases references with
    | nil => exact stepRunning_continues ⟨rfl, by simp⟩ meet place next
    | cons reference outer =>
      obtain ⟨start, name, depth, mode⟩ := reference
      cases mode with
      | excluded => exact stepExcluded_continues rfl (c :: text) rfl outer next
      | running => exact stepRunning_continues ⟨rfl, by simp⟩ meet place next
      | target => exact absurd rfl (settled _ List.mem_cons_self)

namespace AwaitsNoTarget

theorem withDepth (settled : markup.AwaitsNoTarget) (change : Nat → Nat) :
    (markup.withDepth change).AwaitsNoTarget := by
  obtain ⟨tag, references, verbatim, reach⟩ := markup
  cases references with
  | nil => exact settled
  | cons reference outer =>
    obtain ⟨innermost, others⟩ := List.forall_mem_cons.mp settled
    exact List.forall_mem_cons.mpr ⟨innermost, others⟩

variable (noLabel : ∀ name, settings.bodyPolicy name ≠ .label)

include noLabel in
theorem stepRunning (settled : markup.AwaitsNoTarget) (place : Nat) (c : Char) :
    (markup.stepRunning settings place c text).markup.AwaitsNoTarget := by
  rw [OpenMarkup.stepRunning]
  split
  · rw [stepLess]
    split
    · exact settled
    · exact settled
  · split
    · rw [stepOpen]
      split
      · next name rest _ =>
        refine List.forall_mem_cons.mpr ⟨?_, settled⟩
        have policy := noLabel (String.ofList name)
        dsimp only
        rw [bodyMode]
        split
        · simp
        · contradiction
        · simp
      · exact settled.withDepth (· + 1)
    · split
      · rw [stepClose]
        split
        · exact settled
        · next reference outer stack =>
          split
          · intro other member
            exact settled other (stack ▸ List.mem_cons_of_mem reference member)
          · exact settled.withDepth (· - 1)
      · exact settled

include noLabel in
theorem step (settled : markup.AwaitsNoTarget) (place : Nat) (c : Char) :
    (markup.step settings place c text).markup.AwaitsNoTarget := by
  obtain ⟨tag, references, verbatim, reach⟩ := markup
  cases tag with
  | some tag =>
    change (stepTag ..).markup.AwaitsNoTarget
    rw [stepTag]
    split
    · exact settled
    · exact settled
  | none =>
    cases references with
    | nil => exact settled.stepRunning noLabel place c
    | cons reference outer =>
      obtain ⟨innermost, others⟩ := List.forall_mem_cons.mp settled
      obtain ⟨start, name, depth, mode⟩ := reference
      cases mode with
      | excluded =>
        change (stepExcluded ..).markup.AwaitsNoTarget
        rw [stepExcluded]
        split
        · exact List.forall_mem_cons.mpr ⟨innermost, others⟩
        · exact others
      | running => exact settled.stepRunning noLabel place c
      | target => exact absurd rfl innermost

include noLabel in
theorem read (settled : markup.AwaitsNoTarget) (place : Nat) :
    (markup.read settings place text).2.AwaitsNoTarget := by
  fun_induction OpenMarkup.read settings markup place text with
  | case1 => exact settled
  | case2 markup place c text advance pieces last rest ih =>
    rw [rest] at ih
    exact ih (settled.step noLabel place c)

end AwaitsNoTarget

end OpenMarkup

/-! ### Texts -/

namespace Piece

/-- Pieces in front make no difference to which pieces behind are alike up to joining. -/
theorem join_append_congr {pieces others : List Piece} (same : join pieces = join others)
    (front : List Piece) : join (front ++ pieces) = join (front ++ others) := by
  induction front with
  | nil => exact same
  | cons piece front ih => rw [List.cons_append, List.cons_append, join_cons, join_cons, ih]

/-- A piece in two parts is one piece. -/
theorem join_cons_cons (role : Role) (divides : Bool) (first second : List Char)
    (pieces : List Piece) :
    join (⟨role, divides, first⟩ :: ⟨role, divides, second⟩ :: pieces) =
      join (⟨role, divides, first ++ second⟩ :: pieces) := by
  by_cases left : first = []
  · rw [join_cons, if_pos left, left, List.nil_append]
  by_cases right : second = []
  · rw [join_cons, if_neg left, join_cons, if_pos right, right, List.append_nil, join_cons,
      if_neg left]
  have nonempty : ∀ piece ∈ join pieces, piece.text ≠ [] := fun piece => text_ne_nil_of_mem_join
  obtain ⟨more, back, -, cons_eq⟩ := exists_cons_eq role divides nonempty
  rw [join_cons, if_neg left, join_cons, if_neg right, join_cons,
    if_neg (List.append_ne_nil_of_left_ne_nil left second), cons_eq, cons_eq]
  simp [cons]

theorem join_cons_append (piece : Piece) (pieces back : List Piece) :
    join (cons piece pieces ++ back) = join (piece :: pieces ++ back) := by
  cases pieces with
  | nil => rfl
  | cons next pieces =>
    rw [cons]
    split
    · next same =>
      obtain ⟨role, divides, text⟩ := piece
      obtain ⟨rfl, rfl⟩ := same
      exact (join_cons_cons _ _ text next.text (pieces ++ back)).symm
    · rfl

/-- It makes no difference whether the pieces in front are joined before. -/
theorem join_join_append (pieces back : List Piece) :
    join (join pieces ++ back) = join (pieces ++ back) := by
  induction pieces with
  | nil => rfl
  | cons piece pieces ih =>
    rw [join_cons, List.cons_append, join_cons]
    split
    · exact ih
    · next visible => rw [join_cons_append, List.cons_append, join_cons, if_neg visible, ih]

theorem join_join (pieces : List Piece) : join (join pieces) = join pieces := by
  simpa using join_join_append pieces []

end Piece

namespace OpenMarkup

/-- A text is read like its two parts one after the other, up to joining, if they meet at a
blank. -/
theorem read_append {settings : Settings} (noLabel : ∀ name, settings.bodyPolicy name ≠ .label)
    {markup : OpenMarkup} (settled : markup.AwaitsNoTarget) (place : Nat) {front back : List Char}
    (meet : MeetAtBlank front back) (noSlash : EndsWithoutSlash front) :
    let first := markup.read settings place front
    let second := first.2.read settings (place + width front) back
    let whole := markup.read settings place (front ++ back)
    Piece.join (first.1 ++ second.1) = Piece.join whole.1 ∧ second.2 = whole.2 := by
  cases back with
  | nil => simp [read]
  | cons d after =>
  fun_induction read settings markup place front
  case case1 => simp
  case case2 markup place c text advance pieces last rest ih =>
    have whole : advance.taken ++ advance.rest = c :: text :=
      append_step settings markup place c text
    have size : place + width (c :: text) =
        place + width advance.taken + width advance.rest := by
      rw [← whole, width_append, Nat.add_assoc]
    rw [List.cons_append, read_cons settings markup place c (text ++ d :: after)]
    rcases step_continues settings settled meet noSlash place (place + width (c :: text))
      with same | ⟨role, divides, first, second, others, done, took, next, together⟩
    · -- The step ends in the front.
      change markup.step settings place c (text ++ d :: after) =
        { advance with rest := advance.rest ++ d :: after } at same
      rw [← whole] at meet noSlash
      obtain ⟨pieces_eq, markup_eq⟩ :=
        ih (settled.step noLabel place c) noSlash.of_append meet.of_append
      rw [rest] at pieces_eq markup_eq
      rw [same, size]
      refine ⟨?_, markup_eq⟩
      rw [List.append_assoc]
      exact Piece.join_append_congr pieces_eq advance.pieces
    · -- The step goes on behind it.
      change advance.rest = [] at done
      change advance.pieces = _ at took
      rw [done, read] at rest
      obtain ⟨rfl, rfl⟩ := Prod.mk.inj rest
      obtain rfl : first = c :: text := by simpa [Advance.taken, took, done] using whole
      have behind : place + width (c :: text) +
          width (Advance.mk (⟨role, divides, second⟩ :: others) advance.markup []).taken =
          place + width (markup.step settings place c (text ++ d :: after)).taken := by
        rw [Advance.taken, Advance.taken, together]
        simp only [List.flatMap_cons, width_append]
        omega
      dsimp only
      rw [read_cons settings advance.markup _ d after, next, took, together]
      simp only [Advance.taken] at behind ⊢
      rw [behind]
      exact ⟨Piece.join_cons_cons role divides (c :: text) second _, rfl⟩

end OpenMarkup

end CommentProse
