import CommentProse.Proofs.Markup.Braces
import CommentProse.Proofs.Markup.Passing

/-! # More open policies

Where one reading leaves out more of the bodies of references than another one, both agree on the
references that are open, but for the inside of a body that the first one leaves out: there the
second one may have opened references, with as many braces in all (`OpenMarkup.Narrower`). So
whatever is prose to the first one is prose to the second one (`OpenMarkup.Narrower.read`).
-/

namespace CommentProse

namespace BodyPolicy

/-- How much of a body is read. -/
def rank : BodyPolicy → Nat
  | .exclude => 0
  | .label => 1
  | .prose => 2

instance : LE BodyPolicy := ⟨fun policy other => policy.rank ≤ other.rank⟩

instance (policy other : BodyPolicy) : Decidable (policy ≤ other) :=
  inferInstanceAs (Decidable (policy.rank ≤ other.rank))

end BodyPolicy

/-- No reference has more of its body read under the first settings than under the second ones. -/
def Settings.NarrowerThan (first second : Settings) : Prop :=
  ∀ name, first.bodyPolicy name ≤ second.bodyPolicy name

/-- A mark that is prose only if the other one of the same character is. -/
def LessProse (mark other : Char × Role) : Prop :=
  mark.1 = other.1 ∧ (mark.2 = .prose → other.2 = .prose)

theorem LessProse.refl (mark : Char × Role) : LessProse mark mark := ⟨rfl, id⟩

/-- Marks without prose are below all marks of the same characters. -/
theorem forall₂_lessProse {marks others : List (Char × Role)}
    (same : marks.map Prod.fst = others.map Prod.fst)
    (noProse : ∀ mark ∈ marks, mark.2 ≠ .prose) : List.Forall₂ LessProse marks others := by
  induction marks generalizing others with
  | nil =>
    obtain rfl := List.map_eq_nil_iff.mp same.symm
    exact .nil
  | cons mark marks ih =>
    cases others with
    | nil => cases same
    | cons other others =>
      obtain ⟨first, rest⟩ := List.cons_eq_cons.mp same
      obtain ⟨here, later⟩ := List.forall_mem_cons.mp noProse
      exact .cons ⟨first, fun prose => absurd prose here⟩ (ih rest later)

theorem map_fst_of_lessProse {marks others : List (Char × Role)}
    (less : List.Forall₂ LessProse marks others) :
    marks.map Prod.fst = others.map Prod.fst := by
  rw [← List.forall₂_eq_eq_eq, List.forall₂_map_left_iff, List.forall₂_map_right_iff]
  exact less.imp fun _ _ same => same.1

theorem forall₂_lessProse_self (marks : List (Char × Role)) :
    List.Forall₂ LessProse marks marks :=
  List.forall₂_same.mpr fun mark _ => .refl mark

/-- Every byte that is prose is prose in the other spans, too. -/
def Span.LessProse (spans others : List Span) : Prop :=
  ∀ offset, RoleAt spans offset .prose → RoleAt others offset .prose

theorem Span.LessProse.append_left {spans others : List Span} (less : LessProse spans others)
    (front : List Span) : LessProse (front ++ spans) (front ++ others) := by
  rintro offset ⟨span, member, here⟩
  rcases List.mem_append.mp member with before | behind
  · exact ⟨span, List.mem_append_left others before, here⟩
  · obtain ⟨other, among, there⟩ := less offset ⟨span, behind, here⟩
    exact ⟨other, List.mem_append_right front among, there⟩

/-- References that both are read as running text, with as many plain braces. -/
structure OpenReference.BothRun (reference other : OpenReference) : Prop where
  mode : reference.mode = .running
  otherMode : other.mode = .running
  depth : reference.depth = other.depth

/-- The references that are open under two settings, of which the first ones leave out more. -/
inductive NarrowerReferences : List OpenReference → List OpenReference → Prop where
  | running {outer others : List OpenReference}
      (run : List.Forall₂ OpenReference.BothRun outer others) : NarrowerReferences outer others
  /-- The first reading waits for a target; the second one does, too, or does not know of any. -/
  | target {reference other : OpenReference} {outer others : List OpenReference}
      (run : List.Forall₂ OpenReference.BothRun outer others) (awaits : reference.mode = .target)
      (read : other.mode ≠ .excluded) (depth : reference.depth = other.depth) :
      NarrowerReferences (reference :: outer) (other :: others)
  /-- The first reading leaves out a body in which the second one has opened references. -/
  | excluded {reference : OpenReference} {inner outer others : List OpenReference}
      (run : List.Forall₂ OpenReference.BothRun outer others)
      (excluded : reference.mode = .excluded)
      (braces : OpenReference.openBraces inner = reference.depth + 1) :
      NarrowerReferences (reference :: outer) (inner ++ others)

namespace OpenMarkup

/-- What is open under two settings, of which the first ones leave out more. -/
structure Narrower (markup other : OpenMarkup) : Prop where
  tagless : markup.Tagless
  otherTagless : other.Tagless
  references : NarrowerReferences markup.references other.references

/-- Two readings pass over the same part of a text, the first one with no more prose. -/
inductive BothPass (first second : Settings) (markup other : OpenMarkup) (place : Nat)
    (text : List Char) : Prop where
  | intro (marks others : List (Char × Role)) (rest : List Char) (next otherNext : OpenMarkup)
    (text_eq : marks.map Prod.fst ++ rest = text) (nonempty : marks ≠ [])
    (less : List.Forall₂ LessProse marks others) (pass : Passes first markup place marks rest next)
    (otherPass : Passes second other place others rest otherNext)
    (narrower : next.Narrower otherNext)

variable {first second : Settings} {markup other : OpenMarkup} {place : Nat}
  {c : Char} {text : List Char}

/-! ### Running text -/

theorem Tagless.withReferences (tagless : markup.Tagless) (references : List OpenReference) :
    OpenMarkup.Tagless { markup with references } := ⟨tagless.tag, tagless.verbatim⟩

theorem Tagless.withDepth (tagless : markup.Tagless) (change : Nat → Nat) :
    (markup.withDepth change).Tagless := by
  rw [OpenMarkup.withDepth]
  split
  · exact tagless
  · exact tagless.withReferences _

theorem narrower_withDepth (tagless : markup.Tagless) (otherTagless : other.Tagless)
    (run : List.Forall₂ OpenReference.BothRun markup.references other.references)
    (change : Nat → Nat) : (markup.withDepth change).Narrower (other.withDepth change) := by
  refine ⟨tagless.withDepth change, otherTagless.withDepth change, .running ?_⟩
  obtain ⟨tag, references, verbatim, reach⟩ := markup
  obtain ⟨otherTag, others, otherVerbatim, otherReach⟩ := other
  cases run with
  | nil => exact .nil
  | cons here rest => exact .cons ⟨here.mode, here.otherMode, congrArg change here.depth⟩ rest

/-- Opening a reference under two settings. -/
theorem narrower_open (narrow : first.NarrowerThan second) (tagless : markup.Tagless)
    (otherTagless : other.Tagless)
    (run : List.Forall₂ OpenReference.BothRun markup.references other.references) (start : Nat)
    (name : String) :
    OpenMarkup.Narrower
      { markup with references :=
        ⟨start, name, 0, bodyMode first name⟩ :: markup.references }
      { other with references :=
        ⟨start, name, 0, bodyMode second name⟩ :: other.references } := by
  refine ⟨tagless.withReferences _, otherTagless.withReferences _, ?_⟩
  have less := narrow name
  cases policy : first.bodyPolicy name with
  | exclude =>
    have mode : bodyMode first name = .excluded := by rw [bodyMode, policy]
    change NarrowerReferences _ ([⟨start, name, 0, bodyMode second name⟩] ++ other.references)
    exact .excluded run mode rfl
  | label =>
    have mode : bodyMode first name = .target := by rw [bodyMode, policy]
    refine .target run mode ?_ rfl
    rw [policy] at less
    rw [bodyMode]
    cases otherPolicy : second.bodyPolicy name with
    | exclude => exact absurd (otherPolicy ▸ less) (by decide)
    | label => simp
    | prose => simp
  | prose =>
    have otherPolicy : second.bodyPolicy name = .prose := by
      rw [policy] at less
      cases otherPolicy : second.bodyPolicy name with
      | exclude => exact absurd (otherPolicy ▸ less) (by decide)
      | label => exact absurd (otherPolicy ▸ less) (by decide)
      | prose => rfl
    refine .running (.cons ⟨?_, ?_, rfl⟩ run)
    · rw [bodyMode, policy]
    · rw [bodyMode, otherPolicy]

/-- Running text is read alike under two settings, but for how the bodies of references are read
that open. -/
theorem stepRunning_narrower (narrow : first.NarrowerThan second) (tagless : markup.Tagless)
    (otherTagless : other.Tagless)
    (run : List.Forall₂ OpenReference.BothRun markup.references other.references)
    (notLess : c ≠ '<') (place : Nat) (text : List Char) :
    let advance := markup.stepRunning first place c text
    let otherAdvance := other.stepRunning second place c text
    Piece.marks advance.pieces = Piece.marks otherAdvance.pieces ∧
      advance.rest = otherAdvance.rest ∧ advance.markup.Narrower otherAdvance.markup := by
  have plain {markup other : OpenMarkup} (narrower : markup.Narrower other) (d : Char) :
      Piece.marks (markup.stepText d text).pieces = Piece.marks (other.stepText d text).pieces ∧
        (markup.stepText d text).rest = (other.stepText d text).rest ∧
        (markup.stepText d text).markup.Narrower (other.stepText d text).markup := by
    refine ⟨?_, rfl, narrower⟩
    simp [stepText, narrower.tagless.verbatim, narrower.otherTagless.verbatim]
  have deeper (change : Nat → Nat) := narrower_withDepth tagless otherTagless run change
  dsimp only
  rw [stepRunning, stepRunning, if_neg notLess, if_neg notLess]
  split
  · rw [stepOpen, stepOpen]
    cases OpenReference.name? text with
    | none => exact plain (deeper (· + 1)) _
    | some parts => exact ⟨by simp, rfl, narrower_open narrow tagless otherTagless run place _⟩
  · split
    · rw [stepClose, stepClose]
      cases references : markup.references with
      | nil =>
        have others : other.references = [] := by
          rwa [references, List.forall₂_nil_left_iff] at run
        rw [others]
        exact plain ⟨tagless, otherTagless, .running run⟩ _
      | cons reference outer =>
        rw [references] at run
        obtain ⟨innermost, others, here, rest, otherReferences⟩ :=
          List.forall₂_cons_left_iff.mp run
        rw [otherReferences]
        dsimp only
        rw [here.depth]
        split
        · exact ⟨rfl, rfl, tagless.withReferences _, otherTagless.withReferences _, .running rest⟩
        · exact plain (deeper (· - 1)) _
    · exact plain ⟨tagless, otherTagless, .running run⟩ c

/-- Two steps that take the same, and after which the first reading leaves out more. -/
theorem BothPass.step (same : Piece.marks (markup.step first place c text).pieces =
      Piece.marks (other.step second place c text).pieces)
    (rest : (markup.step first place c text).rest = (other.step second place c text).rest)
    (narrower : (markup.step first place c text).markup.Narrower
      (other.step second place c text).markup) :
    BothPass first second markup other place (c :: text) := by
  have pass := Passes.step first markup place c text
  have otherPass := Passes.step second other place c text
  rw [← same, ← rest] at otherPass
  refine .intro _ _ _ _ _ ?_ ?_ (forall₂_lessProse_self _) pass otherPass narrower
  · rw [Piece.map_fst_marks]
    exact append_step first markup place c text
  · intro none
    have taken := Piece.map_fst_marks (markup.step first place c text).pieces
    rw [none] at taken
    exact step_taken_ne_nil first markup place c text taken.symm

/-- Both readings read running text. -/
theorem BothPass.stepRunning {running otherRunning : OpenMarkup}
    (narrow : first.NarrowerThan second) (tagless : running.Tagless)
    (otherTagless : otherRunning.Tagless)
    (run : List.Forall₂ OpenReference.BothRun running.references otherRunning.references)
    (notLess : c ≠ '<')
    (step : markup.step first place c text = running.stepRunning first place c text)
    (otherStep : other.step second place c text =
      otherRunning.stepRunning second place c text) :
    BothPass first second markup other place (c :: text) := by
  obtain ⟨same, rest, narrower⟩ :=
    stepRunning_narrower narrow tagless otherTagless run notLess place text
  rw [← step, ← otherStep] at same rest narrower
  exact .step same rest narrower

theorem BothPass.running (narrow : first.NarrowerThan second) (tagless : markup.Tagless)
    (otherTagless : other.Tagless)
    (run : List.Forall₂ OpenReference.BothRun markup.references other.references)
    (notLess : c ≠ '<') (place : Nat) (text : List Char) :
    BothPass first second markup other place (c :: text) := by
  have resumes : markup.Resumes ∧ other.Resumes := by
    cases references : markup.references with
    | nil =>
      rw [references, List.forall₂_nil_left_iff] at run
      exact ⟨⟨tagless.tag, by simp [references]⟩, otherTagless.tag, by simp [run]⟩
    | cons reference outer =>
      rw [references] at run
      obtain ⟨innermost, others, here, -, otherReferences⟩ := List.forall₂_cons_left_iff.mp run
      exact ⟨⟨tagless.tag, by simp [references, here.mode]⟩,
        otherTagless.tag, by simp [otherReferences, here.otherMode]⟩
  exact .stepRunning narrow tagless otherTagless run notLess
    (resumes.1.step_eq first text place c) (resumes.2.step_eq second text place c)

/-! ### Targets -/

section Targets

variable {reference innermost : OpenReference} {outer others : List OpenReference}

/-- Behind a target that the first reading has taken, or blanks that may stand before one, the
second one still waits for a target only if the first one does. -/
theorem narrower_target (run : List.Forall₂ OpenReference.BothRun outer others)
    (depth : reference.depth = innermost.depth) (target : List Char) {otherMode : BodyMode}
    (read : otherMode ≠ .excluded) (taken : target.isEmpty = false → otherMode = .running) :
    NarrowerReferences
      ({ reference with mode := if target.isEmpty then .target else .running } :: outer)
      ({ innermost with mode := otherMode } :: others) := by
  cases empty : target.isEmpty with
  | true => exact .target run rfl read depth
  | false => exact .running (.cons ⟨rfl, taken empty, depth⟩ run)

/-- The first reading takes a target, and the second one passes over it as plain text. -/
theorem BothPass.targetAsText (tagless : markup.Tagless) (otherTagless : other.Tagless)
    (step : markup.step first place c text = markup.stepTarget reference outer (c :: text))
    (resumes : other.Resumes) (noTag : '<' ∉ c :: text)
    (narrower : ∀ target : List Char, NarrowerReferences
      ({ reference with mode := if target.isEmpty then .target else .running } :: outer)
      other.references) :
    BothPass first second markup other place (c :: text) := by
  have pass := Passes.step first markup place c text
  have whole := append_step first markup place c text
  have nonempty := step_taken_ne_nil first markup place c text
  have blanks : ∀ d ∈ (c :: text).takeWhile isBlank, isMarkupChar d = false :=
    fun d member => not_isMarkupChar_of_isBlank (List.mem_takeWhile_imp member)
  have unbraced := OpenReference.unbraced_splitTarget 0 ((c :: text).dropWhile isBlank)
  rw [step, stepTarget] at pass whole nonempty
  rcases split : OpenReference.splitTarget 0 ((c :: text).dropWhile isBlank) with ⟨target, rest⟩
  rw [split] at pass whole nonempty unbraced
  simp only [Advance.taken, List.flatMap_cons, List.flatMap_nil, List.append_nil] at whole nonempty
  have plain : ∀ d ∈ (c :: text).takeWhile isBlank ++ target, isMarkupChar d = false := by
    intro d member
    have inText : d ∈ c :: text := whole ▸ List.mem_append_left rest member
    rcases List.mem_append.mp member with blank | inTarget
    · exact blanks d blank
    · simp only [isMarkupChar, Bool.or_eq_false_iff, beq_eq_false_iff_ne]
      exact ⟨⟨fun less => noTag (less ▸ inText), (unbraced d inTarget).1⟩, (unbraced d inTarget).2⟩
  have otherPass := Passes.plain second resumes place plain rest
  refine .intro _ _ _ _ _ ?_ ?_ ?_ pass otherPass
    ⟨tagless.withReferences _, otherTagless, narrower target⟩
  · simpa [Function.comp_def] using whole
  · simpa using nonempty
  · refine forall₂_lessProse (by simp [Function.comp_def]) fun mark member => ?_
    obtain ⟨piece, among, present⟩ := List.mem_flatMap.mp member
    obtain rfl := List.mem_singleton.mp among
    obtain ⟨d, -, rfl⟩ := List.mem_map.mp present
    simp

/-- The first reading takes a target, which is plain text to the second one or a target, too. -/
theorem BothPass.target (narrow : first.NarrowerThan second) (tagless : markup.Tagless)
    (otherTagless : other.Tagless) (references : markup.references = reference :: outer)
    (otherReferences : other.references = innermost :: others)
    (run : List.Forall₂ OpenReference.BothRun outer others) (awaits : reference.mode = .target)
    (read : innermost.mode ≠ .excluded) (depth : reference.depth = innermost.depth)
    (noTag : '<' ∉ c :: text) (place : Nat) :
    BothPass first second markup other place (c :: text) := by
  by_cases brace : c = '\x7b' ∨ c = '\x7d'
  · have bothRun : List.Forall₂ OpenReference.BothRun
        ({ reference with mode := .running } :: outer)
        ({ innermost with mode := .running } :: others) := .cons ⟨rfl, rfl, depth⟩ run
    exact .stepRunning narrow (tagless.withReferences _) (otherTagless.withReferences _) bothRun
      (fun less => noTag (less ▸ List.mem_cons_self))
      (step_of_brace tagless references (by simp [awaits]) brace first place text)
      (step_of_brace otherTagless otherReferences read brace second place text)
  · have step : markup.step first place c text = markup.stepTarget reference outer (c :: text) := by
      simp only [OpenMarkup.step, tagless.tag, references, awaits, if_neg brace]
    cases mode : innermost.mode with
    | excluded => exact absurd mode read
    | target =>
      have otherStep : other.step second place c text =
          other.stepTarget innermost others (c :: text) := by
        simp only [OpenMarkup.step, otherTagless.tag, otherReferences, mode, if_neg brace]
      refine .step ?_ ?_ ?_
      · rw [step, otherStep]
        rfl
      · rw [step, otherStep]
        rfl
      · rw [step, otherStep]
        exact ⟨tagless.withReferences _, otherTagless.withReferences _,
          narrower_target run depth _ (by split <;> simp) fun taken => by simp [taken]⟩
    | running =>
      have resumes : other.Resumes := ⟨otherTagless.tag, by simp [otherReferences, mode]⟩
      have same : { innermost with mode := .running } = innermost := by rw [← mode]
      refine .targetAsText tagless otherTagless step resumes noTag fun target => ?_
      rw [otherReferences, ← same]
      exact narrower_target run depth target (by simp) fun _ => rfl

end Targets

/-! ### Bodies that are left out -/

section Excluded

variable {settings : Settings} {reference : OpenReference} {outer others : List OpenReference}

/-- Text without braces is passed over in a body that is left out. -/
theorem LeavesOut.passes_unbraced (leaves : markup.LeavesOut reference outer)
    (settings : Settings) (place : Nat) {more : List Char} (unbraced : Unbraced more)
    (rest : List Char) :
    Passes settings markup place (more.map (·, .argument)) rest markup := by
  induction more generalizing place with
  | nil => exact .nil settings markup place rest
  | cons c more ih =>
    obtain ⟨first, behind⟩ := List.forall_mem_cons.mp unbraced
    have pass := leaves.passes_char settings place (fun close => first.2 close.1)
      ((more.map (·, Role.argument)).map Prod.fst ++ rest)
    simp only [if_neg first.1, if_neg first.2] at pass
    have same : { markup with references := reference :: outer } = markup := by
      rw [← leaves.references]
    rw [same] at pass
    exact pass.trans (ih (place + c.utf8Size) behind)

/-- A character that leaves a brace open is passed over with the text behind it. -/
theorem LeavesOut.passes_cons (leaves : markup.LeavesOut reference outer) (settings : Settings)
    (place : Nat) (c : Char) {more : List Char} (unbraced : Unbraced more) (rest : List Char)
    (inside : countAfter c (reference.depth + 1) ≠ 0) :
    Passes settings markup place ((c :: more).map (·, .argument)) rest
      { markup with references :=
        { reference with depth := countAfter c (reference.depth + 1) - 1 } :: outer } := by
  have stays : ¬(c = '\x7d' ∧ reference.depth = 0) := mt countAfter_succ_eq_zero_iff.mpr inside
  have depth : (if c = '\x7b' then reference.depth + 1
      else if c = '\x7d' then reference.depth - 1 else reference.depth) =
      countAfter c (reference.depth + 1) - 1 := by
    simp only [countAfter]
    split
    · rfl
    · split <;> rfl
  have pass := leaves.passes_char settings place stays
    ((more.map (·, Role.argument)).map Prod.fst ++ rest)
  simp only [depth] at pass
  have carried : LeavesOut { markup with references :=
      { reference with depth := countAfter c (reference.depth + 1) - 1 } :: outer } _ outer :=
    ⟨leaves.tag, rfl, leaves.excluded⟩
  exact pass.trans (carried.passes_unbraced settings (place + c.utf8Size) unbraced rest)

/-- Whatever the mode of the innermost reference is, a character is passed over with text without
braces behind it, and the braces that are open are counted. -/
theorem exists_passes_counted (tagless : markup.Tagless)
    (references : markup.references = reference :: outer) (notLess : c ≠ '<')
    (settings : Settings) (place : Nat) (text : List Char) :
    ∃ (marks : List (Char × Role)) (more rest : List Char) (inner : List OpenReference),
      Passes settings markup place marks rest { markup with references := inner ++ outer } ∧
      marks.map Prod.fst = c :: more ∧ more ++ rest = text ∧ Unbraced more ∧
      OpenReference.openBraces inner = countAfter c (reference.depth + 1) ∧
      (inner = [] → more = []) := by
  by_cases excluded : reference.mode = .excluded
  · have leaves : markup.LeavesOut reference outer := ⟨tagless.tag, references, excluded⟩
    by_cases zero : countAfter c (reference.depth + 1) = 0
    · obtain ⟨rfl, closed⟩ := countAfter_succ_eq_zero_iff.mp zero
      exact ⟨_, [], text, [], leaves.passes_close settings place closed text, rfl, rfl,
        unbraced_nil, zero.symm, fun _ => rfl⟩
    · refine ⟨_, [], text, [{ reference with depth := countAfter c (reference.depth + 1) - 1 }],
        leaves.passes_cons settings place c unbraced_nil text zero, rfl, rfl, unbraced_nil, ?_,
        by simp⟩
      simp only [OpenReference.openBraces_cons, OpenReference.openBraces_nil]
      omega
  · obtain ⟨more, inner, counts⟩ :=
      exists_countsOne tagless references excluded notLess settings place text
    have pass := Passes.step settings markup place c text
    have whole := append_step settings markup place c text
    rw [counts.markup_eq] at pass
    rw [counts.taken_eq, List.cons_append] at whole
    exact ⟨_, more, _, inner, pass, (Piece.map_fst_marks _).trans counts.taken_eq,
      (List.cons_eq_cons.mp whole).2, counts.unbraced, counts.count, counts.closed⟩

/-- The first reading leaves out what the second one reads in the references it has opened. -/
theorem BothPass.excluded {inner : List OpenReference} (tagless : markup.Tagless)
    (otherTagless : other.Tagless) (references : markup.references = reference :: outer)
    (otherReferences : other.references = inner ++ others)
    (run : List.Forall₂ OpenReference.BothRun outer others) (excluded : reference.mode = .excluded)
    (braces : OpenReference.openBraces inner = reference.depth + 1) (notLess : c ≠ '<')
    (place : Nat) (text : List Char) :
    BothPass first second markup other place (c :: text) := by
  have leaves : markup.LeavesOut reference outer := ⟨tagless.tag, references, excluded⟩
  cases inner with
  | nil => cases braces
  | cons innermost between =>
    rw [List.cons_append] at otherReferences
    obtain ⟨marks, more, rest, inner, pass, spelled, parts, unbraced, counted, closed⟩ :=
      exists_passes_counted otherTagless otherReferences notLess second place text
    have count : OpenReference.openBraces (inner ++ between) =
        countAfter c (reference.depth + 1) := by
      rw [← braces, OpenReference.openBraces_cons, countAfter_add c (Nat.succ_pos _),
        OpenReference.openBraces_append, counted]
    have text_eq : c :: more ++ rest = c :: text := by rw [List.cons_append, parts]
    rw [← List.append_assoc] at pass
    by_cases zero : countAfter c (reference.depth + 1) = 0
    · -- The brace closes what is left out, and all that the second reading has opened in it.
      rw [zero, OpenReference.openBraces_eq_zero_iff, List.append_eq_nil_iff] at count
      obtain ⟨rfl, rfl⟩ := count
      obtain rfl := closed rfl
      obtain ⟨rfl, shallow⟩ := countAfter_succ_eq_zero_iff.mp zero
      exact .intro [('\x7d', .markup)] marks rest _ _ text_eq (by simp)
        (forall₂_lessProse spelled.symm (by simp)) (leaves.passes_close first place shallow rest)
        pass ⟨tagless.withReferences _, otherTagless.withReferences _, .running run⟩
    · have chars : ((c :: more).map (·, Role.argument)).map Prod.fst = c :: more := by
        simp [Function.comp_def]
      refine .intro _ marks rest _ _ (chars.symm ▸ text_eq) (by simp)
        (forall₂_lessProse (chars.trans spelled.symm) (by simp))
        (leaves.passes_cons first place c unbraced rest zero) pass
        ⟨tagless.withReferences _, otherTagless.withReferences _, .excluded run excluded ?_⟩
      rw [count]
      exact (Nat.sub_add_cancel (Nat.pos_of_ne_zero zero)).symm

end Excluded

/-! ### Texts and lines -/

/-- Reading on, whatever is open. -/
theorem Narrower.bothPass (narrower : markup.Narrower other) (narrow : first.NarrowerThan second)
    (noTag : '<' ∉ c :: text) (place : Nat) :
    BothPass first second markup other place (c :: text) := by
  obtain ⟨tagless, otherTagless, related⟩ := narrower
  have notLess : c ≠ '<' := fun less => noTag (less ▸ List.mem_cons_self)
  generalize references : markup.references = stack at related
  generalize otherReferences : other.references = otherStack at related
  cases related with
  | running run =>
    rw [← references, ← otherReferences] at run
    exact .running narrow tagless otherTagless run notLess place text
  | target run awaits read depth =>
    exact .target narrow tagless otherTagless references otherReferences run awaits read depth noTag
      place
  | excluded run excluded braces =>
    exact .excluded tagless otherTagless references otherReferences run excluded braces notLess
      place text

/-- Whatever is prose to the first reading of a text is prose to the second one. -/
theorem Narrower.read (narrower : markup.Narrower other) (narrow : first.NarrowerThan second)
    (noTag : '<' ∉ text) (place : Nat) :
    List.Forall₂ LessProse (Piece.marks (markup.read first place text).1)
        (Piece.marks (other.read second place text).1) ∧
      (markup.read first place text).2.Narrower (other.read second place text).2 := by
  induction size : text.length using Nat.strong_induction_on
    generalizing markup other place text with
  | _ length ih =>
  subst size
  cases text with
  | nil =>
    rw [OpenMarkup.read, OpenMarkup.read]
    exact ⟨.nil, narrower⟩
  | cons c text =>
    obtain ⟨marks, others, rest, next, otherNext, parts, nonempty, less, pass, otherPass, behind⟩ :=
      narrower.bothPass narrow noTag place
    have spelled := map_fst_of_lessProse less
    have shorter : rest.length < (c :: text).length := by
      have positive := List.length_pos_iff.mpr nonempty
      rw [← parts, List.length_append, List.length_map]
      omega
    have later : '<' ∉ rest := fun member => noTag (parts ▸ List.mem_append_right _ member)
    obtain ⟨lessBehind, final⟩ :=
      ih _ shorter behind later (place + width (marks.map Prod.fst)) rfl
    have marksEq := pass.marks_eq
    have lastEq := pass.last_eq
    have otherMarksEq := otherPass.marks_eq
    have otherLastEq := otherPass.last_eq
    rw [parts] at marksEq lastEq
    rw [← spelled, parts] at otherMarksEq otherLastEq
    rw [marksEq, otherMarksEq, lastEq, otherLastEq]
    exact ⟨List.rel_append less lessBehind, final⟩

theorem exists_of_forall₂_append_cons {α β : Type} {relation : α → β → Prop} {front back : List α}
    {a : α} {items : List β} (related : List.Forall₂ relation (front ++ a :: back) items) :
    ∃ first b last, items = first ++ b :: last ∧ List.Forall₂ relation front first ∧
      relation a b := by
  induction front generalizing items with
  | nil =>
    obtain ⟨b, last, here, -, rfl⟩ := List.forall₂_cons_left_iff.mp related
    exact ⟨[], b, last, rfl, .nil, here⟩
  | cons e front ih =>
    obtain ⟨d, rest, here, behind, rfl⟩ := List.forall₂_cons_left_iff.mp related
    obtain ⟨first, b, last, rfl, before, there⟩ := ih behind
    exact ⟨d :: first, b, last, rfl, .cons here before, there⟩

/-- Whatever is prose to the first reading of a line is prose to the second one. -/
theorem Narrower.readLine (narrower : markup.Narrower other) (narrow : first.NarrowerThan second)
    {content : Fragment} (noTag : '<' ∉ content.text) :
    Span.LessProse (markup.readLine first content).1 (other.readLine second content).1 ∧
      (markup.readLine first content).2.Narrower (other.readLine second content).2 := by
  obtain ⟨less, final⟩ := narrower.read narrow noTag content.start
  refine ⟨fun offset prose => ?_, ⟨final.tagless.tag, final.tagless.verbatim⟩,
    ⟨final.otherTagless.tag, final.otherTagless.verbatim⟩, final.references⟩
  obtain ⟨front, c, back, marks, lower, upper⟩ := roleAt_readLine_iff.mp prose
  rw [marks] at less
  obtain ⟨before, ⟨d, role⟩, after, others, same, here⟩ := exists_of_forall₂_append_cons less
  have spelled := map_fst_of_lessProse same
  obtain ⟨rfl, role⟩ : c = d ∧ (Role.prose = .prose → role = .prose) := here
  rw [role rfl] at others
  rw [spelled] at lower upper
  exact roleAt_readLine_iff.mpr ⟨before, c, after, others, lower, upper⟩

end OpenMarkup

end CommentProse
