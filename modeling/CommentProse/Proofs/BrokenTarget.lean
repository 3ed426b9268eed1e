import CommentProse.Analysis
import CommentProse.Proofs.Markup.Passing

/-! # Targets that are broken across lines

The target of a labelled reference ends at the first blank outside parentheses, so on one line a
list of parameters belongs to it with all its blanks. How many parentheses are open is not kept at
the end of a line, though. A target that is broken at a blank in its list is taken up to the end of
the line; the reference has its target then, and what is left of the list is read as running text on
the next line (`OpenMarkup.roleAt_broken_target`).
-/

namespace CommentProse

/-! ### Targets -/

/-- What is left of a target in which so many parentheses are open: they balance, blanks stand
inside of them only, and there is no brace. -/
def IsTarget (parentheses : Nat) : List Char → Prop
  | [] => parentheses = 0
  | c :: text =>
    c ≠ '\x7b' ∧ c ≠ '\x7d' ∧ (isBlank c = true ∨ c = ')' → 0 < parentheses) ∧
      IsTarget (if c = '(' then parentheses + 1 else if c = ')' then parentheses - 1
        else parentheses) text

instance IsTarget.decidable : (parentheses : Nat) → (text : List Char) →
    Decidable (IsTarget parentheses text)
  | parentheses, [] => inferInstanceAs (Decidable (parentheses = 0))
  | parentheses, c :: text =>
    have := decidable (if c = '(' then parentheses + 1 else if c = ')' then parentheses - 1
      else parentheses) text
    inferInstanceAs (Decidable (c ≠ '\x7b' ∧ c ≠ '\x7d' ∧
      (isBlank c = true ∨ c = ')' → 0 < parentheses) ∧ _))

namespace IsTarget

variable {parentheses : Nat} {text front more : List Char}

theorem not_ends {c : Char} (target : IsTarget parentheses (c :: text)) :
    ¬(c = '\x7b' ∨ c = '\x7d' ∨ (isBlank c = true ∧ parentheses = 0)) := by
  rintro (brace | brace | ⟨blank, none⟩)
  · exact target.1 brace
  · exact target.2.1 brace
  · exact absurd (target.2.2.1 (.inl blank)) (by omega)

/-- There is no brace in a target. -/
theorem not_brace (target : IsTarget parentheses text) :
    '\x7b' ∉ text ∧ '\x7d' ∉ text := by
  induction text generalizing parentheses with
  | nil => simp
  | cons c text ih =>
    obtain ⟨first, second, -, rest⟩ := target
    have others := ih rest
    simp [others, first.symm, second.symm]

/-- A part of a target is taken as a whole. -/
theorem splitTarget_front (target : IsTarget parentheses (front ++ more)) :
    OpenReference.splitTarget parentheses front = (front, []) := by
  induction front generalizing parentheses with
  | nil => rfl
  | cons c front ih =>
    rw [OpenReference.splitTarget, if_neg target.not_ends]
    dsimp only
    rw [ih target.2.2.2]

/-- A target is taken up to its end. -/
theorem splitTarget_append (target : IsTarget parentheses text) {rest : List Char}
    (ends : ∀ c ∈ rest.head?, c = '\x7b' ∨ c = '\x7d' ∨ isBlank c = true) :
    OpenReference.splitTarget parentheses (text ++ rest) = (text, rest) := by
  induction text generalizing parentheses with
  | nil =>
    obtain rfl : parentheses = 0 := target
    cases rest with
    | nil => rfl
    | cons c rest =>
      rw [List.nil_append, OpenReference.splitTarget, if_pos]
      simpa using ends c rfl
  | cons c text ih =>
    rw [List.cons_append, OpenReference.splitTarget, if_neg target.not_ends]
    dsimp only
    rw [ih target.2.2.2]

end IsTarget

/-- A labelled reference whose target has a blank in its list of parameters. -/
structure BrokenTarget (settings : Settings) where
  name : List Char
  /-- The blanks before the target. -/
  gap : List Char
  /-- The target up to the blank. -/
  front : List Char
  blank : Char
  /-- The target behind the blank. -/
  back : List Char
  name_ne_nil : name ≠ []
  name_chars : ∀ c ∈ name, isNameChar c = true
  name_ends : ∀ c ∈ (gap ++ front).head?, isNameChar c = false
  labelled : settings.bodyPolicy (String.ofList name) = .label
  gap_blank : ∀ c ∈ gap, isBlank c = true
  isBlank_blank : isBlank blank = true
  isTarget : IsTarget 0 (front ++ blank :: back)

namespace BrokenTarget

variable {settings : Settings} (broken : BrokenTarget settings)

/-- The reference up to its target. -/
def opening : List Char := '\x7b' :: '@' :: (broken.name ++ broken.gap)

def target : List Char := broken.front ++ broken.blank :: broken.back

theorem front_ne_nil : broken.front ≠ [] := by
  intro empty
  have target := broken.isTarget
  rw [empty, List.nil_append] at target
  exact absurd (target.2.2.1 (.inl broken.isBlank_blank)) (Nat.lt_irrefl 0)

theorem name?_append (rest : List Char) :
    OpenReference.name? ('@' :: (broken.name ++ (broken.gap ++ broken.front ++ rest))) =
      some (broken.name, broken.gap ++ broken.front ++ rest) := by
  obtain ⟨c, text, behind⟩ := List.exists_cons_of_ne_nil
    (List.append_ne_nil_of_right_ne_nil broken.gap broken.front_ne_nil)
  have ends := broken.name_ends c (by simp [behind])
  simp [OpenReference.name?, behind, List.takeWhile_append_of_pos broken.name_chars,
    List.dropWhile_append_of_pos broken.name_chars, ends, broken.name_ne_nil]

end BrokenTarget

/-! ### Where a reference is read -/

namespace OpenMarkup

variable {settings : Settings} {markup running : OpenMarkup} {place : Nat} {c : Char}
  {text : List Char}

theorem stepOpen_of_running_tagName
    (named : ∃ piece ∈ (markup.stepRunning settings place c text).pieces, piece.role = .tagName) :
    c = '\x7b' ∧ (OpenReference.name? text).isSome = true ∧
      markup.stepRunning settings place c text = markup.stepOpen settings place text := by
  have plain (other : OpenMarkup) (d : Char) :
      ¬∃ piece ∈ (other.stepText d text).pieces, piece.role = .tagName := by
    simp only [stepText, List.mem_singleton, exists_eq_left]
    split <;> simp
  rw [stepRunning] at named ⊢
  split at named
  · rw [stepLess] at named
    split at named
    · simp at named
    · exact absurd named (plain _ _)
  · next notLess =>
    rw [if_neg notLess]
    split at named
    · next brace =>
      rw [if_pos brace]
      rw [stepOpen] at named
      split at named
      · next read => exact ⟨brace, by rw [read]; rfl, rfl⟩
      · exact absurd named (plain _ _)
    · split at named
      · rw [stepClose] at named
        split at named
        · exact absurd named (plain _ _)
        · split at named
          · simp at named
          · exact absurd named (plain _ _)
      · exact absurd named (plain _ _)

/-- A step that takes a name opens a reference in running text. -/
theorem exists_stepOpen_of_tagName
    (named : ∃ piece ∈ (markup.step settings place c text).pieces, piece.role = .tagName) :
    c = '\x7b' ∧ (OpenReference.name? text).isSome = true ∧ ∃ running : OpenMarkup,
      running.tag = .none ∧
      markup.step settings place c text = running.stepOpen settings place text := by
  rw [step] at named ⊢
  split at named
  · rw [stepTag] at named
    split at named <;> simp at named
  · next reference outer noTag _ =>
    split at named
    · rw [stepExcluded] at named
      split at named <;> simp at named
    · split at named
      · next brace =>
        obtain ⟨opens, read, step⟩ := stepOpen_of_running_tagName named
        rw [if_pos brace]
        exact ⟨opens, read,
          { markup with references := { reference with mode := .running } :: outer }, noTag, step⟩
      · simp [stepTarget] at named
    · obtain ⟨opens, read, step⟩ := stepOpen_of_running_tagName named
      exact ⟨opens, read, markup, noTag, step⟩
  · next noTag _ =>
    obtain ⟨opens, read, step⟩ := stepOpen_of_running_tagName named
    exact ⟨opens, read, markup, noTag, step⟩

/-- The markup with a reference that is opened in it. -/
def withReference (settings : Settings) (place : Nat) (name : List Char) (markup : OpenMarkup) :
    OpenMarkup :=
  { markup with references :=
      ⟨place, String.ofList name, 0, bodyMode settings (String.ofList name)⟩ :: markup.references }

/-- A text is read so that a reference of this name is opened behind `before`, and `rest` is read
behind the name. -/
structure Opens (settings : Settings) (markup : OpenMarkup) (place : Nat) (text : List Char)
    (running : OpenMarkup) (before name rest : List Char) : Prop where
  text_eq : text = before ++ '\x7b' :: '@' :: (name ++ rest)
  name_eq : OpenReference.name? ('@' :: (name ++ rest)) = some (name, rest)
  tag : running.tag = .none
  passes : ∃ left, left.map Prod.fst = before ++ '\x7b' :: '@' :: name ∧
    Passes settings markup place left rest
      (running.withReference settings (place + width before) name)

theorem Opens.here {name rest : List Char}
    (found : OpenReference.name? ('@' :: (name ++ rest)) = some (name, rest))
    (noTag : running.tag = .none)
    (step : markup.step settings place '\x7b' ('@' :: (name ++ rest)) =
      running.stepOpen settings place ('@' :: (name ++ rest))) :
    Opens settings markup place ('\x7b' :: '@' :: (name ++ rest)) running [] name rest := by
  have pass := Passes.step settings markup place '\x7b' ('@' :: (name ++ rest))
  rw [step, stepOpen, found] at pass
  refine ⟨rfl, found, noTag, _, ?_, pass⟩
  simp [Function.comp_def]

theorem Opens.behind {before name rest : List Char}
    (opens : Opens settings (markup.step settings place c text).markup
      (place + width (markup.step settings place c text).taken)
      (markup.step settings place c text).rest running before name rest) :
    Opens settings markup place (c :: text) running
      ((markup.step settings place c text).taken ++ before) name rest := by
  obtain ⟨left, spelled, pass⟩ := opens.passes
  have first := Passes.step settings markup place c text
  have taken : (Piece.marks (markup.step settings place c text).pieces).map Prod.fst =
      (markup.step settings place c text).taken := Piece.map_fst_marks _
  refine ⟨?_, opens.name_eq, opens.tag,
    Piece.marks (markup.step settings place c text).pieces ++ left, ?_, ?_⟩
  · rw [List.append_assoc, ← opens.text_eq]
    exact (append_step settings markup place c text).symm
  · rw [List.map_append, taken, spelled, List.append_assoc]
  · have rest : left.map Prod.fst ++ rest = (markup.step settings place c text).rest := by
      rw [spelled, opens.text_eq]
      simp
    rw [← rest] at first
    rw [width_append, ← Nat.add_assoc]
    exact first.trans (taken ▸ pass)

/-- Where a name is marked, a reference is opened. -/
theorem exists_opens {index : Nat} {d : Char}
    (named : (Piece.marks (markup.read settings place text).1)[index]? = some (d, .tagName)) :
    ∃ running before name rest, Opens settings markup place text running before name rest ∧
      before.length + 2 ≤ index ∧ index < before.length + 2 + name.length := by
  induction size : text.length using Nat.strong_induction_on
    generalizing markup place text index with
  | _ length ih =>
  subst size
  cases text with
  | nil => simp [read] at named
  | cons c text =>
    rw [marks_read_cons] at named
    by_cases inside : index < (Piece.marks (markup.step settings place c text).pieces).length
    · -- The step takes the name.
      rw [List.getElem?_append_left inside] at named
      obtain ⟨piece, member, here⟩ := List.mem_flatMap.mp (List.mem_of_getElem? named)
      obtain ⟨e, -, same⟩ := List.mem_map.mp here
      obtain ⟨rfl, read, running, noTag, step⟩ :=
        exists_stepOpen_of_tagName ⟨piece, member, congrArg Prod.snd same⟩
      obtain ⟨⟨name, rest⟩, found⟩ := Option.isSome_iff_exists.mp read
      obtain rfl := OpenReference.append_of_name? found
      refine ⟨running, [], name, rest, .here found noTag step, ?_⟩
      rw [step, stepOpen, found] at named inside
      rcases index with _ | _ | index
      · simp at named
      · simp at named
      · simp only [Piece.marks_cons, Piece.marks_nil, List.length_append, List.length_map,
          List.length_cons, List.length_nil] at inside ⊢
        omega
    · rw [List.getElem?_append_right (Nat.not_lt.mp inside)] at named
      obtain ⟨running, before, name, rest, opens, first, last⟩ :=
        ih _ (length_step_lt settings markup place c text) named rfl
      have taken : (Piece.marks (markup.step settings place c text).pieces).length =
          (markup.step settings place c text).taken.length := Piece.length_marks _
      refine ⟨running, _, name, rest, opens.behind, ?_, ?_⟩
      · rw [List.length_append]
        omega
      · rw [List.length_append]
        omega

/-- A reference is opened at the brace before the name that is marked. -/
theorem opens_of_tagName {before name rest : List Char} {d : Char}
    (found : OpenReference.name? ('@' :: (name ++ rest)) = some (name, rest))
    (named : (Piece.marks (markup.read settings place
      (before ++ '\x7b' :: '@' :: (name ++ rest))).1)[before.length + 2]? = some (d, .tagName)) :
    ∃ running, Opens settings markup place (before ++ '\x7b' :: '@' :: (name ++ rest)) running
      before name rest := by
  obtain ⟨running, front, other, back, opens, first, last⟩ := exists_opens named
  obtain ⟨between, rfl, same⟩ :=
    exists_append_of_length_le opens.text_eq.symm (by omega)
  rw [List.length_append] at last
  rcases between with _ | ⟨x, _ | ⟨y, between⟩⟩
  · obtain ⟨-, -, same⟩ : '\x7b' = '\x7b' ∧ '@' = '@' ∧ other ++ back = name ++ rest := by
      simpa using same
    have again := opens.name_eq
    rw [same, found] at again
    obtain ⟨rfl, rfl⟩ := Prod.mk.inj (Option.some.inj again)
    rw [List.append_nil] at opens ⊢
    exact ⟨running, opens⟩
  · simp at same
  · -- The other name would have a brace in it.
    obtain ⟨-, -, same⟩ : '\x7b' = x ∧ '@' = y ∧
        other ++ back = between ++ '\x7b' :: '@' :: (name ++ rest) := by simpa using same
    rw [List.length_cons, List.length_cons] at last
    obtain ⟨more, rfl, brace⟩ := exists_append_of_length_le same.symm (by omega)
    rw [List.length_append] at last
    obtain ⟨z, more, rfl⟩ := List.exists_cons_of_length_pos (l := more) (by omega)
    obtain rfl : '\x7b' = z := (List.cons_eq_cons.mp brace).1
    have named := (OpenReference.name_of_name? opens.name_eq).2 '\x7b' (by simp)
    exact absurd named (by decide)

/-- A reference is opened at the brace before the byte that is a name. -/
theorem exists_opens_of_roleAt {start : Nat} {before name rest : List Char}
    (found : OpenReference.name? ('@' :: (name ++ rest)) = some (name, rest))
    (named : Span.RoleAt
      (markup.readLine settings ⟨start, before ++ '\x7b' :: '@' :: (name ++ rest)⟩).1
      (start + width (before ++ ['\x7b', '@'])) .tagName) :
    ∃ running, Opens settings markup start (before ++ '\x7b' :: '@' :: (name ++ rest)) running
      before name rest := by
  obtain ⟨left, c, right, marks, lower, upper⟩ := roleAt_readLine_iff.mp named
  obtain ⟨d, more, rfl⟩ := List.exists_cons_of_ne_nil (OpenReference.name_of_name? found).1
  have spelled : before ++ ['\x7b', '@'] ++ d :: (more ++ rest) =
      left.map Prod.fst ++ c :: right.map Prod.fst := by
    simpa using text_eq_of_marks marks
  have positive := d.utf8Size_pos
  obtain ⟨same, rfl⟩ := eq_of_char_around spelled (Nat.le_refl _) (by omega) lower upper
  refine opens_of_tagName found (d := d) ?_
  have index : left.length = before.length + 2 := by
    simpa using (congrArg List.length same).symm
  dsimp only at marks
  rw [marks, ← index, List.getElem?_append_right (Nat.le_refl _), Nat.sub_self]
  rfl

/-! ### The line with the target -/

/-- A target is taken in one step, and the reference waits for none any more. -/
theorem passes_target (settings : Settings) (markup : OpenMarkup) (place : Nat)
    {reference : OpenReference} {outer : List OpenReference} {gap word rest more : List Char}
    (noTag : markup.tag = .none) (references : markup.references = reference :: outer)
    (awaits : reference.mode = .target) (blank : ∀ c ∈ gap, isBlank c = true)
    (target : IsTarget 0 (word ++ more)) (nonempty : word ≠ [])
    (taken : OpenReference.splitTarget 0 (word ++ rest) = (word, rest)) :
    Passes settings markup place ((gap ++ word).map (·, .argument)) rest
      { markup with references := { reference with mode := .running } :: outer } := by
  obtain ⟨d, others, rfl⟩ := List.exists_cons_of_ne_nil nonempty
  have visible : isBlank d = false :=
    Bool.eq_false_iff.mpr fun blank => target.not_ends (.inr (.inr ⟨blank, rfl⟩))
  obtain ⟨c, text, split, unbraced⟩ : ∃ c text, gap ++ (d :: others ++ rest) = c :: text ∧
      ¬(c = '\x7b' ∨ c = '\x7d') := by
    cases gap with
    | nil => exact ⟨d, _, rfl, fun brace => target.not_ends (brace.imp_right .inl)⟩
    | cons c gap =>
      have plain := not_isMarkupChar_of_isBlank (blank c List.mem_cons_self)
      simp only [isMarkupChar, Bool.or_eq_false_iff, beq_eq_false_iff_ne] at plain
      exact ⟨c, _, rfl, fun brace => brace.elim plain.1.2 plain.2⟩
  have blanks : (c :: text).takeWhile isBlank = gap := by
    rw [← split, List.takeWhile_append_of_pos blank]
    simp [visible]
  have behind : (c :: text).dropWhile isBlank = d :: others ++ rest := by
    rw [← split, List.dropWhile_append_of_pos blank]
    simp [visible]
  have step : markup.step settings place c text =
      markup.stepTarget reference outer (c :: text) := by
    simp only [OpenMarkup.step, noTag, references, awaits, if_neg unbraced]
  have pass := Passes.step settings markup place c text
  rw [step, stepTarget, blanks, behind, taken] at pass
  simpa using pass

/-! ### The next line -/

/-- In running text nothing but a brace opens or closes a reference. -/
theorem step_of_unbraced (settings : Settings) (place : Nat) (text : List Char)
    (running : ∀ reference ∈ markup.references.head?, reference.mode = .running)
    (unbraced : ¬(c = '\x7b' ∨ c = '\x7d')) :
    (markup.step settings place c text).markup.references = markup.references ∧
      ∀ piece ∈ (markup.step settings place c text).pieces,
        piece.role = .markup ∨ piece.role = .prose := by
  obtain ⟨tag, references, verbatim, reach⟩ := markup
  cases tag with
  | some tag =>
    change (stepTag ..).markup.references = _ ∧ ∀ piece ∈ (stepTag ..).pieces, _
    rw [stepTag]
    split <;> simp
  | none =>
    have resumes : Resumes ⟨.none, references, verbatim, reach⟩ := ⟨rfl, running⟩
    have plain (d : Char) : ∀ piece ∈ (stepText ⟨.none, references, verbatim, reach⟩ d text).pieces,
        piece.role = .markup ∨ piece.role = .prose := by
      simpa [stepText] using (Decidable.em (verbatim = .none)).symm
    rw [not_or] at unbraced
    rw [resumes.step_eq, stepRunning, if_neg unbraced.1, if_neg unbraced.2]
    split
    · rw [stepLess]
      split
      · simp
      · exact ⟨rfl, plain _⟩
    · exact ⟨rfl, plain _⟩

/-- Running text without braces is no argument. -/
theorem role_of_unbraced {back : List Char} (tail : List Char)
    (running : ∀ reference ∈ markup.references.head?, reference.mode = .running)
    (unbraced : '\x7b' ∉ back ∧ '\x7d' ∉ back) :
    ∀ mark ∈ (Piece.marks (markup.read settings place (back ++ tail)).1).take back.length,
      mark.2 = .markup ∨ mark.2 = .prose := by
  induction size : back.length using Nat.strong_induction_on generalizing markup place back with
  | _ length ih =>
  subst size
  cases back with
  | nil => simp
  | cons c text =>
    intro mark member
    have first : ¬(c = '\x7b' ∨ c = '\x7d') := by
      rintro (rfl | rfl)
      · exact unbraced.1 List.mem_cons_self
      · exact unbraced.2 List.mem_cons_self
    obtain ⟨references, roles⟩ := step_of_unbraced settings place (text ++ tail) running first
    have whole := append_step settings markup place c (text ++ tail)
    have taken : (Piece.marks (markup.step settings place c (text ++ tail)).pieces).length =
        (markup.step settings place c (text ++ tail)).taken.length := Piece.length_marks _
    rw [List.cons_append, marks_read_cons, List.take_append, List.mem_append] at member
    rcases member with here | behind
    · obtain ⟨piece, among, present⟩ := List.mem_flatMap.mp (List.mem_of_mem_take here)
      obtain ⟨e, -, rfl⟩ := List.mem_map.mp present
      exact roles piece among
    · by_cases shorter : (markup.step settings place c (text ++ tail)).taken.length ≤
          (c :: text).length
      · obtain ⟨more, parts, rest⟩ := exists_append_of_length_le (whole.trans rfl) shorter
        have size := congrArg List.length parts
        rw [List.length_append] at size
        have positive := List.length_pos_iff.mpr
          (step_taken_ne_nil settings markup place c (text ++ tail))
        rw [parts, List.mem_append, List.mem_append, not_or, not_or] at unbraced
        rw [rest, taken, size, Nat.add_sub_cancel_left] at behind
        exact ih more.length (by omega) (references ▸ running) ⟨unbraced.1.2, unbraced.2.2⟩ rfl
          mark behind
      · rw [taken, Nat.sub_eq_zero_of_le (by omega), List.take_zero] at behind
        cases behind

/-! ### The break -/

variable (broken : BrokenTarget settings)

/-- Where the reference is read, its target is taken up to the break, or up to its end. -/
theorem exists_passes_of_broken {start : Nat} {before word rest more : List Char}
    (target : IsTarget 0 (word ++ more)) (begins : ∃ others, word = broken.front ++ others)
    (taken : OpenReference.splitTarget 0 (word ++ rest) = (word, rest))
    (named : Span.RoleAt
      (markup.readLine settings ⟨start, before ++ broken.opening ++ word ++ rest⟩).1
      (start + width (before ++ ['\x7b', '@'])) .tagName) :
    ∃ left, ∃ next : OpenMarkup, next.Resumes ∧ left.map Prod.fst = before ++ broken.opening ∧
      Passes settings markup start (left ++ word.map (·, .argument)) rest next := by
  obtain ⟨others, rfl⟩ := begins
  have parts : before ++ broken.opening ++ (broken.front ++ others) ++ rest =
      before ++ '\x7b' :: '@' :: (broken.name ++
        (broken.gap ++ (broken.front ++ others) ++ rest)) := by
    simp [BrokenTarget.opening]
  have found := broken.name?_append (others ++ rest)
  have shape : broken.gap ++ broken.front ++ (others ++ rest) =
      broken.gap ++ (broken.front ++ others) ++ rest := by simp
  rw [shape] at found
  rw [parts] at named
  obtain ⟨running, opens⟩ := exists_opens_of_roleAt found named
  obtain ⟨left, spelled, pass⟩ := opens.passes
  have awaits : bodyMode settings (String.ofList broken.name) = .target := by
    rw [bodyMode, broken.labelled]
  have nonempty : broken.front ++ others ≠ [] :=
    List.append_ne_nil_of_left_ne_nil broken.front_ne_nil others
  have behind := passes_target settings (running.withReference settings (start + width before) _)
    (start + width (left.map Prod.fst)) opens.tag rfl awaits broken.gap_blank target nonempty taken
  have chars : ((broken.gap ++ (broken.front ++ others)).map (·, Role.argument)).map Prod.fst ++
      rest = broken.gap ++ (broken.front ++ others) ++ rest := by
    simp [Function.comp_def]
  rw [← chars] at pass
  refine ⟨left ++ broken.gap.map (·, .argument),
    { running with references :=
        ⟨start + width before, String.ofList broken.name, 0, .running⟩ :: running.references },
    ⟨opens.tag, ?_⟩, ?_, ?_⟩
  · rintro _ ⟨⟩
    rfl
  · simp [spelled, BrokenTarget.opening, Function.comp_def]
  · have whole := pass.trans behind
    rw [List.map_append, ← List.append_assoc] at whole
    exact whole

/-- Where the reference is read, its target is argument up to the break, or up to its end. -/
theorem roleAt_word_of_broken {start : Nat} {before word rest more : List Char}
    (target : IsTarget 0 (word ++ more)) (begins : ∃ others, word = broken.front ++ others)
    (taken : OpenReference.splitTarget 0 (word ++ rest) = (word, rest))
    (named : Span.RoleAt
      (markup.readLine settings ⟨start, before ++ broken.opening ++ word ++ rest⟩).1
      (start + width (before ++ ['\x7b', '@'])) .tagName) {offset : Nat}
    (lower : start + width (before ++ broken.opening) ≤ offset)
    (upper : offset < start + width (before ++ broken.opening) + width word) :
    Span.RoleAt (markup.readLine settings ⟨start, before ++ broken.opening ++ word ++ rest⟩).1
      offset .argument := by
  obtain ⟨left, next, -, spelled, pass⟩ := exists_passes_of_broken broken target begins taken named
  have marks := pass.marks_eq
  have text : (left ++ word.map (·, Role.argument)).map Prod.fst =
      before ++ broken.opening ++ word := by
    simp [spelled, Function.comp_def]
  rw [text] at marks
  rw [← spelled] at lower upper
  exact roleAt_readLine_of_marks left marks lower upper

/-- Nothing of a text without braces is an argument where it is read as running text. -/
theorem not_roleAt_argument {start offset : Nat} {back tail : List Char}
    (resumes : markup.Resumes) (unbraced : '\x7b' ∉ back ∧ '\x7d' ∉ back)
    (lower : start ≤ offset) (upper : offset < start + width back) :
    ¬Span.RoleAt (markup.readLine settings ⟨start, back ++ tail⟩).1 offset .argument := by
  intro argument
  obtain ⟨front, c, after, marks, first, last⟩ := roleAt_readLine_iff.mp argument
  have spelled := Piece.map_fst_marks (markup.read settings start (back ++ tail)).1
  rw [flatMap_text_read] at spelled
  have whole := List.take_append_drop back.length
    (Piece.marks (markup.read settings start (back ++ tail)).1)
  have inside : (c, Role.argument) ∈
      (Piece.marks (markup.read settings start (back ++ tail)).1).take back.length := by
    refine mem_of_mark_between [] (whole.trans marks) lower ?_ first last
    rwa [List.nil_append, List.map_take, spelled, List.take_left]
  simpa using role_of_unbraced tail resumes.running unbraced _ inside

/-- On one line all of the target of a labelled reference is its argument. If the line is broken at
a blank in the parameters of the target, the target is argument up to the break, and nothing of it
behind the break: where no tag begins there and no element is open, all of this is prose. -/
theorem roleAt_broken_target (markup : OpenMarkup) (start next : Nat) (before tail : List Char)
    (ends : ∀ c ∈ tail.head?, c = '\x7b' ∨ c = '\x7d' ∨ isBlank c = true) :
    let name := start + width (before ++ ['\x7b', '@'])
    let place := start + width (before ++ broken.opening)
    let whole := markup.readLine settings ⟨start, before ++ broken.opening ++ broken.target ++ tail⟩
    let first := markup.readLine settings ⟨start, before ++ broken.opening ++ broken.front⟩
    let second := first.2.readLine settings ⟨next, broken.back ++ tail⟩
    (Span.RoleAt whole.1 name .tagName → ∀ offset, place ≤ offset →
      offset < place + width broken.target → Span.RoleAt whole.1 offset .argument) ∧
    (Span.RoleAt first.1 name .tagName →
      (∀ offset, place ≤ offset → offset < place + width broken.front →
        Span.RoleAt first.1 offset .argument) ∧
      (∀ offset, next ≤ offset → offset < next + width broken.back →
        ¬Span.RoleAt second.1 offset .argument) ∧
      ('<' ∉ broken.back → first.2.verbatim = .none →
        ∀ offset, next ≤ offset → offset < next + width broken.back →
          Span.RoleAt second.1 offset .prose)) := by
  intro name place whole first second
  have part : IsTarget 0 (broken.target ++ []) := by
    rw [List.append_nil]
    exact broken.isTarget
  refine ⟨fun named offset lower upper => ?_, fun named => ?_⟩
  · have taken := broken.isTarget.splitTarget_append ends
    exact roleAt_word_of_broken broken part ⟨_, rfl⟩ taken named lower upper
  · have taken : OpenReference.splitTarget 0 (broken.front ++ []) = (broken.front, []) := by
      rw [List.append_nil]
      exact broken.isTarget.splitTarget_front
    have opened : Span.RoleAt (markup.readLine settings
        ⟨start, before ++ broken.opening ++ broken.front ++ []⟩).1 name .tagName := by
      rwa [List.append_nil]
    have begins : ∃ others, broken.front = broken.front ++ others := ⟨[], by simp⟩
    obtain ⟨left, behind, resumes, spelled, pass⟩ :=
      exists_passes_of_broken broken broken.isTarget begins taken opened
    have carried : first.2.Resumes := by
      have last := pass.last_eq
      have text : (left ++ broken.front.map (·, Role.argument)).map Prod.fst ++ [] =
          before ++ broken.opening ++ broken.front := by
        simp [spelled, Function.comp_def]
      rw [text, read] at last
      simp only [first, readLine, last]
      exact ⟨resumes.tag, resumes.running⟩
    have unbraced : '\x7b' ∉ broken.back ∧ '\x7d' ∉ broken.back := by
      have none := broken.isTarget.not_brace
      simp only [List.mem_append, List.mem_cons, not_or] at none
      exact ⟨none.1.2.2, none.2.2.2⟩
    refine ⟨fun offset lower upper => ?_, fun offset => ?_, fun noTag plain offset => ?_⟩
    · have argument := roleAt_word_of_broken broken broken.isTarget begins taken opened lower upper
      rwa [List.append_nil] at argument
    · exact not_roleAt_argument carried unbraced
    · have text : ∀ c ∈ broken.back, isMarkupChar c = false := by
        intro c member
        simp only [isMarkupChar, Bool.or_eq_false_iff, beq_eq_false_iff_ne]
        exact ⟨⟨ne_of_mem_of_not_mem member noTag, ne_of_mem_of_not_mem member unbraced.1⟩,
          ne_of_mem_of_not_mem member unbraced.2⟩
      have prose : first.2.textRole = .prose := by simp [textRole, plain]
      have marks := (Passes.plain settings carried next text tail).marks_eq
      simp only [prose, List.map_map, Function.comp_def, List.map_id'] at marks
      exact roleAt_readLine_of_marks [] marks

/-- A method with two parameters, of which the second one stands on the next line: it is read with
the label. -/
theorem roleAt_broken_target_parameters :
    let settings := { Settings.standard with inlineTags := [("link", .label)] }
    let whole := none.readLine settings ⟨4, "\x7b@link #m(int, String) x\x7d ".toList⟩
    let first := none.readLine settings ⟨4, "\x7b@link #m(int,".toList⟩
    let second := first.2.readLine settings ⟨22, "String) x\x7d ".toList⟩
    (∀ offset, 11 ≤ offset → offset < 26 → Span.RoleAt whole.1 offset .argument) ∧
      (∀ offset, 11 ≤ offset → offset < 18 → Span.RoleAt first.1 offset .argument) ∧
      (∀ offset, 22 ≤ offset → offset < 29 → Span.RoleAt second.1 offset .prose) ∧
      ∃ analysis, Analysis.ofBlock settings
          ⟨0, "/** \x7b@link #m(int,\n * String) x\x7d */".toList⟩ = .ok analysis ∧
        analysis.passages.map Passage.text = ["String) x".toList] := by
  intro settings whole first second
  let broken : BrokenTarget settings :=
    { name := "link".toList
      gap := [' ']
      front := "#m(int,".toList
      blank := ' '
      back := "String)".toList
      name_ne_nil := by decide
      name_chars := List.all_eq_true.mp (by decide)
      name_ends := by rintro _ ⟨⟩; decide
      labelled := by decide
      gap_blank := List.all_eq_true.mp (by decide)
      isBlank_blank := by decide
      isTarget := by decide }
  obtain ⟨one, two⟩ := roleAt_broken_target broken none 4 22 [] " x\x7d ".toList
    (by rintro _ ⟨⟩; decide)
  have inWhole : Span.RoleAt whole.1 6 .tagName :=
    ⟨⟨.tagName, ⟨6, 10⟩, false⟩, by decide +kernel, by decide, rfl⟩
  have inFirst : Span.RoleAt first.1 6 .tagName :=
    ⟨⟨.tagName, ⟨6, 10⟩, false⟩, by decide +kernel, by decide, rfl⟩
  obtain ⟨upToBreak, -, behindBreak⟩ := two inFirst
  have analysed : Analysis.ofBlock settings
      ⟨0, "/** \x7b@link #m(int,\n * String) x\x7d */".toList⟩ = .ok
      { offset := 0
        comment := ⟨" \x7b@link #m(int,\n * String) x\x7d ".toList, []⟩
        lines :=
          [⟨⟨3, [' '], "\x7b@link #m(int,".toList, ['\n']⟩,
            [⟨.markup, ⟨4, 6⟩, false⟩, ⟨.tagName, ⟨6, 10⟩, false⟩, ⟨.argument, ⟨10, 18⟩, false⟩]⟩,
          ⟨⟨19, " * ".toList, "String) x\x7d ".toList, []⟩,
            [⟨.prose, ⟨22, 31⟩, false⟩, ⟨.markup, ⟨31, 32⟩, false⟩, ⟨.prose, ⟨32, 33⟩, false⟩]⟩]
        unfinished := []
        passages := [⟨0, 0, .description, "String) x".toList, ⟨[⟨22, 9⟩]⟩⟩] } := by decide +kernel
  exact ⟨one inWhole, upToBreak, behindBreak (by decide) (by decide +kernel), _, analysed, rfl⟩

end OpenMarkup

end CommentProse
