import CommentProse.Proofs.Markup.Reading

/-! # Counting braces

Whatever the policies are, each brace inside a reference is counted once: by the innermost reference
as a plain brace of its own, by the body that is left out, or as the opening or closing brace of
a reference. So the number of braces that are open, taken over all open references, is what counting
braces since the outermost reference began gives (`OpenMarkup.scan_eq`), and the outermost reference
ends where this count reaches zero.
-/

namespace CommentProse

/-- How many braces are open behind a character. -/
def countAfter (c : Char) (count : Nat) : Nat :=
  if c = '\x7b' then count + 1 else if c = '\x7d' then count - 1 else count

/-- There is no brace in the text. -/
def Unbraced (text : List Char) : Prop := ∀ c ∈ text, c ≠ '\x7b' ∧ c ≠ '\x7d'

theorem unbraced_nil : Unbraced [] := by simp [Unbraced]

theorem countAfter_of_not_brace {c : Char} (other : c ≠ '\x7b' ∧ c ≠ '\x7d') (count : Nat) :
    countAfter c count = count := by
  rw [countAfter, if_neg other.1, if_neg other.2]

/-- More braces that are open do not matter to a character that closes no other. -/
theorem countAfter_add (c : Char) {count : Nat} (positive : 0 < count) (more : Nat) :
    countAfter c (count + more) = countAfter c count + more := by
  simp only [countAfter]
  split
  · omega
  · split <;> omega

theorem countAfter_succ_eq_zero_iff {c : Char} {depth : Nat} :
    countAfter c (depth + 1) = 0 ↔ c = '\x7d' ∧ depth = 0 := by
  rw [countAfter]
  split
  · next brace => simp [brace]
  · split
    · next brace => simp [brace]
    · next other => simp [other]

theorem unbraced_of_takeWhile (text : List Char) :
    Unbraced (text.takeWhile (!OpenMarkup.isMarkupChar ·)) := by
  intro c member
  have plain := List.mem_takeWhile_imp member
  simp only [OpenMarkup.isMarkupChar, Bool.not_eq_true', Bool.or_eq_false_iff,
    beq_eq_false_iff_ne] at plain
  exact ⟨plain.1.2, plain.2⟩

namespace OpenReference

/-- How many braces are open: those of the references, and the plain ones inside of them. -/
def openBraces : List OpenReference → Nat
  | [] => 0
  | reference :: outer => reference.depth + 1 + openBraces outer

@[simp] theorem openBraces_nil : openBraces [] = 0 := rfl

@[simp] theorem openBraces_cons (reference : OpenReference) (outer : List OpenReference) :
    openBraces (reference :: outer) = reference.depth + 1 + openBraces outer := rfl

@[simp] theorem openBraces_append (inner outer : List OpenReference) :
    openBraces (inner ++ outer) = openBraces inner + openBraces outer := by
  induction inner with
  | nil => simp
  | cons reference inner ih => simp [ih, Nat.add_assoc]

theorem openBraces_eq_zero_iff {references : List OpenReference} :
    openBraces references = 0 ↔ references = [] := by
  cases references <;> simp

/-- There is no brace in a target. -/
theorem unbraced_splitTarget (parentheses : Nat) (text : List Char) :
    Unbraced (splitTarget parentheses text).1 := by
  induction text generalizing parentheses with
  | nil => exact unbraced_nil
  | cons c text ih =>
    rw [splitTarget]
    split
    · exact unbraced_nil
    · next stays =>
      simp only [not_or] at stays
      exact List.forall_mem_cons.mpr ⟨⟨stays.1, stays.2.1⟩, ih _⟩

theorem unbraced_name {text name rest : List Char} (found : name? text = some (name, rest)) :
    Unbraced ('@' :: name) := by
  refine List.forall_mem_cons.mpr ⟨by decide, fun c member => ?_⟩
  have named := (name_of_name? found).2 c member
  constructor <;> rintro rfl <;> exact absurd named (by decide)

end OpenReference

/-! ### The specification -/

/-- The outermost open reference, and how many braces are open since it began. -/
structure Bracket where
  start : Nat
  name : String
  count : Nat
deriving DecidableEq, Repr

namespace Bracket

/-- Counts one character: the reference that it closes, and the one that is open behind it. Only
`{@name` opens a reference where none is open. -/
def pass (place : Nat) (c : Char) (text : List Char) :
    Option Bracket → List ByteRange × Option Bracket
  | none =>
    if c = '\x7b' then
      ([], (OpenReference.name? text).map fun found => ⟨place, String.ofList found.1, 1⟩)
    else ([], none)
  | some bracket =>
    if countAfter c bracket.count = 0 then ([⟨bracket.start, place + c.utf8Size⟩], none)
    else ([], some { bracket with count := countAfter c bracket.count })

/-- Counts the braces of a text at `place`: the outermost references that are closed in it, and the
one that is open at its end. -/
def scan (place : Nat) (bracket : Option Bracket) : List Char → List ByteRange × Option Bracket
  | [] => ([], bracket)
  | c :: text =>
    let (closed, next) := pass place c text bracket
    let (later, last) := scan (place + c.utf8Size) next text
    (closed ++ later, last)

/-- Text without braces changes nothing. -/
theorem scan_unbraced {text : List Char} (unbraced : Unbraced text) (place : Nat)
    (bracket : Option Bracket) (rest : List Char)
    (counted : ∀ open_ ∈ bracket, open_.count ≠ 0) :
    scan place bracket (text ++ rest) = scan (place + width text) bracket rest := by
  induction text generalizing place with
  | nil => rfl
  | cons c text ih =>
    obtain ⟨first, others⟩ := List.forall_mem_cons.mp unbraced
    have same : pass place c (text ++ rest) bracket = ([], bracket) := by
      cases bracket with
      | none => rw [pass, if_neg first.1]
      | some bracket =>
        rw [pass, countAfter_of_not_brace first, if_neg (counted bracket rfl)]
    rw [List.cons_append, scan, same, width_cons, ← Nat.add_assoc]
    exact ih others (place + c.utf8Size)

/-- A character with text behind it that has no brace changes what the character changes. -/
theorem scan_cons_append (place : Nat) (bracket : Bracket) (c : Char) {more : List Char}
    (unbraced : Unbraced more) (closed : countAfter c bracket.count = 0 → more = [])
    (rest : List Char) :
    let stop := place + width (c :: more)
    let count := countAfter c bracket.count
    let behind := scan stop (if count = 0 then none else some { bracket with count }) rest
    scan place (some bracket) (c :: (more ++ rest)) =
      ((if count = 0 then [⟨bracket.start, stop⟩] else []) ++ behind.1, behind.2) := by
  dsimp only
  by_cases zero : countAfter c bracket.count = 0
  · obtain rfl := closed zero
    simp [scan, pass, zero]
  · have behind (place : Nat) := scan_unbraced unbraced place
      (some { bracket with count := countAfter c bracket.count }) rest (by rintro _ ⟨⟩; exact zero)
    simp [scan, pass, zero, behind, Nat.add_assoc]

/-- A body that is left out is counted to its end. -/
theorem scan_splitExcluded (start : Nat) (name : String) (outside : Nat) (place depth : Nat)
    (text : List Char) :
    let split := OpenReference.splitExcluded depth text
    scan place (some ⟨start, name, depth + 1 + outside⟩) text =
      scan (place + width split.1) (some ⟨start, name, split.2.2 + 1 + outside⟩) split.2.1 := by
  induction text generalizing place depth with
  | nil => rfl
  | cons c text ih =>
    rw [OpenReference.splitExcluded]
    by_cases closes : c = '\x7d' ∧ depth = 0
    · rw [if_pos closes]
      rfl
    · have count : countAfter c (depth + 1 + outside) =
          (if c = '\x7b' then depth + 1 else if c = '\x7d' then depth - 1 else depth) + 1 +
            outside := by
        rw [countAfter]
        split
        · omega
        · split
          · next brace =>
            have positive : depth ≠ 0 := fun zero => closes ⟨brace, zero⟩
            omega
          · rfl
      rw [if_neg closes]
      dsimp only
      generalize (if c = '\x7b' then depth + 1 else if c = '\x7d' then depth - 1 else depth) =
        next at count ⊢
      have inside : pass place c text (some ⟨start, name, depth + 1 + outside⟩) =
          ([], some ⟨start, name, next + 1 + outside⟩) := by
        rw [pass, count, if_neg (by omega)]
      rw [scan, inside, width_cons, ← Nat.add_assoc, ← ih]
      rfl

/-- A reference that is open is closed further on in the text, or still open at its end. -/
theorem scan_covers (place : Nat) (bracket : Bracket) (text : List Char) :
    (∃ range ∈ (scan place (some bracket) text).1,
        range.start = bracket.start ∧ place < range.stop) ∨
      ∃ last, (scan place (some bracket) text).2 = some last ∧ last.start = bracket.start := by
  induction text generalizing place bracket with
  | nil => exact .inr ⟨bracket, rfl, rfl⟩
  | cons c text ih =>
    have positive := c.utf8Size_pos
    rw [scan, pass]
    by_cases closes : countAfter c bracket.count = 0
    · rw [if_pos closes]
      exact .inl ⟨_, List.mem_cons_self, rfl, Nat.lt_add_of_pos_right positive⟩
    · rw [if_neg closes]
      rcases ih (place + c.utf8Size) { bracket with count := countAfter c bracket.count } with
        ⟨range, member, start, later⟩ | ⟨last, final, start⟩
      · exact .inl ⟨range, member, start, by omega⟩
      · exact .inr ⟨last, final, start⟩

end Bracket

/-- An excluded body ends before the brace that closes it. -/
theorem OpenReference.eq_of_splitExcluded {depth reached : Nat} {text taken rest : List Char}
    {brace : Char} (split : splitExcluded depth text = (taken, brace :: rest, reached)) :
    brace = '\x7d' ∧ reached = 0 := by
  induction text generalizing depth taken with
  | nil => cases split
  | cons c text ih =>
    rw [splitExcluded] at split
    split at split
    · next closes =>
      cases split
      exact closes
    · obtain ⟨-, same⟩ := Prod.mk.inj split
      obtain ⟨others, final⟩ := Prod.mk.inj same
      exact ih (Prod.ext rfl (Prod.ext others final))

/-! ### Steps -/

namespace OpenMarkup

variable {settings : Settings} {markup : OpenMarkup} {reference : OpenReference}
  {outer : List OpenReference} {place : Nat} {c : Char} {text : List Char}

/-- Nothing but references is open. -/
structure Tagless (markup : OpenMarkup) : Prop where
  tag : markup.tag = .none
  verbatim : markup.verbatim = .none

/-- The outermost open reference with the braces that are open in it. -/
def bracket (markup : OpenMarkup) : Option Bracket :=
  markup.references.getLast?.map fun outermost =>
    ⟨outermost.start, outermost.name, OpenReference.openBraces markup.references⟩

/-- A step in a reference takes `c` and no brace behind it. The references `inner` take the place of
the reference; the braces that are open in it are counted with `c`. -/
structure CountsOne (markup : OpenMarkup) (reference : OpenReference)
    (outer : List OpenReference) (c : Char) (advance : Advance) (more : List Char)
    (inner : List OpenReference) : Prop where
  taken_eq : advance.taken = c :: more
  unbraced : Unbraced more
  markup_eq : advance.markup = { markup with references := inner ++ outer }
  count : OpenReference.openBraces inner = countAfter c (reference.depth + 1)
  closed : inner = [] → more = []
  outermost : ∀ last ∈ inner.getLast?, last.start = reference.start ∧ last.name = reference.name

theorem CountsOne.stepText (markup : OpenMarkup) (text : List Char) {depth : Nat}
    (count : depth + 1 = countAfter c (reference.depth + 1)) :
    CountsOne markup reference outer c
      (OpenMarkup.stepText { markup with references := { reference with depth } :: outer } c text)
      (text.takeWhile (!isMarkupChar ·)) [{ reference with depth }] where
  taken_eq := by simp [OpenMarkup.stepText, Advance.taken]
  unbraced := unbraced_of_takeWhile text
  markup_eq := rfl
  count := by simpa using count
  closed := by simp
  outermost := by simp

theorem exists_countsOne_stepRunning (settings : Settings) (place : Nat) (text : List Char)
    (references : markup.references = reference :: outer) (notLess : c ≠ '<') :
    ∃ more inner, CountsOne markup reference outer c (markup.stepRunning settings place c text) more
      inner := by
  obtain ⟨tag, stack, verbatim, reach⟩ := markup
  obtain rfl : stack = reference :: outer := references
  rw [stepRunning, if_neg notLess]
  split
  · next brace =>
    subst brace
    rw [stepOpen]
    split
    · next name rest found =>
      refine ⟨'@' :: name, [⟨place, String.ofList name, 0, bodyMode settings _⟩, reference],
        ?_, OpenReference.unbraced_name found, rfl, ?_, by simp, by simp⟩
      · simp [Advance.taken]
      · simp [countAfter]
        omega
    · exact ⟨_, _, .stepText _ text rfl⟩
  · next notOpen =>
    split
    · next brace =>
      subst brace
      rw [stepClose]
      dsimp only
      split
      · next closed =>
        exact ⟨[], [], by simp [Advance.taken], unbraced_nil, rfl, by simp [closed, countAfter],
          fun _ => rfl, by simp⟩
      · next inside =>
        refine ⟨_, _, .stepText _ text ?_⟩
        rw [countAfter, if_neg (by decide), if_pos rfl]
        exact Nat.sub_add_cancel (Nat.pos_of_ne_zero inside)
    · next notClose =>
      exact ⟨_, _, .stepText _ text (countAfter_of_not_brace ⟨notOpen, notClose⟩ _).symm⟩

theorem exists_countsOne_stepTarget (settings : Settings) (place : Nat) (text : List Char)
    (step : markup.step settings place c text = markup.stepTarget reference outer (c :: text)) :
    ∃ more inner, CountsOne markup reference outer c (markup.step settings place c text) more
      inner := by
  have whole := append_step settings markup place c text
  obtain ⟨d, more, taken⟩ :=
    List.exists_cons_of_ne_nil (step_taken_ne_nil settings markup place c text)
  rw [taken, List.cons_append] at whole
  obtain rfl := (List.cons_eq_cons.mp whole).1
  have unbraced : Unbraced (d :: more) := by
    rw [← taken, step, stepTarget]
    intro e member
    simp only [Advance.taken, List.flatMap_cons, List.flatMap_nil, List.append_nil,
      List.mem_append] at member
    rcases member with blank | target
    · have plain := not_isMarkupChar_of_isBlank (List.mem_takeWhile_imp blank)
      simp only [isMarkupChar, Bool.or_eq_false_iff, beq_eq_false_iff_ne] at plain
      exact ⟨plain.1.2, plain.2⟩
    · exact OpenReference.unbraced_splitTarget 0 _ e target
  obtain ⟨first, others⟩ := List.forall_mem_cons.mp unbraced
  refine ⟨more, [{ reference with mode := if (OpenReference.splitTarget 0
    ((d :: text).dropWhile isBlank)).1.isEmpty then .target else .running }],
    taken, others, ?_, ?_, by simp, by simp⟩
  · rw [step]
    rfl
  · simp [countAfter_of_not_brace first]

/-- A brace ends the wait for a target, if there is any. -/
theorem step_of_brace (tagless : markup.Tagless)
    (references : markup.references = reference :: outer) (read : reference.mode ≠ .excluded)
    (brace : c = '\x7b' ∨ c = '\x7d') (settings : Settings) (place : Nat) (text : List Char) :
    markup.step settings place c text = OpenMarkup.stepRunning settings
      { markup with references := { reference with mode := .running } :: outer } place c text := by
  obtain ⟨tag, stack, verbatim, reach⟩ := markup
  obtain rfl : stack = reference :: outer := references
  obtain rfl : tag = .none := tagless.tag
  obtain ⟨start, name, depth, mode⟩ := reference
  cases mode with
  | excluded => exact absurd rfl read
  | target => exact if_pos brace
  | running => rfl

theorem exists_countsOne (tagless : markup.Tagless)
    (references : markup.references = reference :: outer) (read : reference.mode ≠ .excluded)
    (notLess : c ≠ '<') (settings : Settings) (place : Nat) (text : List Char) :
    ∃ more inner, CountsOne markup reference outer c (markup.step settings place c text) more
      inner := by
  cases mode : reference.mode with
  | excluded => exact absurd mode read
  | running =>
    have step : markup.step settings place c text = markup.stepRunning settings place c text := by
      simp only [OpenMarkup.step, tagless.tag, references, mode]
    rw [step]
    exact exists_countsOne_stepRunning settings place text references notLess
  | target =>
    by_cases brace : c = '\x7b' ∨ c = '\x7d'
    · have running : OpenMarkup.references
          { markup with references := { reference with mode := .running } :: outer } =
          { reference with mode := .running } :: outer := rfl
      obtain ⟨more, inner, counts⟩ :=
        exists_countsOne_stepRunning settings place text running notLess
      rw [step_of_brace tagless references read brace]
      exact ⟨more, inner, counts.taken_eq, counts.unbraced, counts.markup_eq, counts.count,
        counts.closed, counts.outermost⟩
    · apply exists_countsOne_stepTarget
      simp only [OpenMarkup.step, tagless.tag, references, mode, if_neg brace]

/-! ### The outermost reference -/

/-- The outermost reference that ends where reading reaches `stop` with `next`. -/
def closedBy (markup next : OpenMarkup) (stop : Nat) : List ByteRange :=
  if next.references = [] then
    (markup.references.getLast?.map fun outermost => ⟨outermost.start, stop⟩).toList
  else []

/-- When references take the place of the innermost one, the outermost one is closed if no brace is
open any more, and else it is the same. -/
theorem closedBy_and_bracket (next : OpenMarkup) (inner : List OpenReference) {bracket : Bracket}
    (before : markup.bracket = some bracket) (references : markup.references = reference :: outer)
    (after : next.references = inner ++ outer)
    (outermost : ∀ last ∈ inner.getLast?,
      last.start = reference.start ∧ last.name = reference.name) (stop : Nat) :
    let count := OpenReference.openBraces (inner ++ outer)
    markup.closedBy next stop = (if count = 0 then [⟨bracket.start, stop⟩] else []) ∧
      next.bracket = if count = 0 then .none else some { bracket with count } := by
  dsimp only
  rw [OpenMarkup.bracket, references] at before
  rw [closedBy, OpenMarkup.bracket, after, references]
  rcases List.eq_nil_or_concat' outer with rfl | ⟨front, last, rfl⟩
  · simp only [List.getLast?_singleton, Option.map_some, Option.some.injEq] at before
    subst before
    rcases List.eq_nil_or_concat' inner with rfl | ⟨front, last, rfl⟩
    · simp
    · obtain ⟨start, name⟩ := outermost last (by simp)
      simp [start, name]
  · simp only [← List.cons_append, List.getLast?_concat, Option.map_some,
      Option.some.injEq] at before
    subst before
    simp [← List.append_assoc]

theorem exists_bracket (references : markup.references = reference :: outer) :
    ∃ bracket, markup.bracket = some bracket ∧
      bracket.count = reference.depth + 1 + OpenReference.openBraces outer := by
  rw [OpenMarkup.bracket, references, List.getLast?_cons]
  exact ⟨_, rfl, rfl⟩

theorem count_ne_zero (markup : OpenMarkup) : ∀ bracket ∈ markup.bracket, bracket.count ≠ 0 := by
  intro bracket member
  cases references : markup.references with
  | nil => simp [OpenMarkup.bracket, references] at member
  | cons reference outer =>
    obtain ⟨other, same, count⟩ := exists_bracket references
    obtain rfl := Option.some.inj (same.symm.trans member)
    omega

/-- Counting over a step and on from where it ends. -/
def ScansTo (markup : OpenMarkup) (place : Nat) (text : List Char) (advance : Advance) : Prop :=
  let stop := place + width advance.taken
  let behind := Bracket.scan stop advance.markup.bracket advance.rest
  Bracket.scan place markup.bracket text =
    (markup.closedBy advance.markup stop ++ behind.1, behind.2)

theorem scansTo_of_countsOne {advance : Advance} {more : List Char} {inner : List OpenReference}
    (references : markup.references = reference :: outer)
    (counts : CountsOne markup reference outer c advance more inner)
    (whole : advance.taken ++ advance.rest = c :: text) :
    markup.ScansTo place (c :: text) advance := by
  obtain ⟨bracket, before, total⟩ := exists_bracket references
  have count : countAfter c bracket.count = OpenReference.openBraces (inner ++ outer) := by
    rw [total, countAfter_add c (Nat.succ_pos _), ← counts.count, OpenReference.openBraces_append]
  have after : advance.markup.references = inner ++ outer := by rw [counts.markup_eq]
  obtain ⟨closed, open_eq⟩ := closedBy_and_bracket advance.markup inner before references after
    counts.outermost (place + width advance.taken)
  have rest : text = more ++ advance.rest := by
    rw [counts.taken_eq, List.cons_append] at whole
    exact (List.cons_eq_cons.mp whole).2.symm
  have scan := Bracket.scan_cons_append place bracket c counts.unbraced (fun zero => ?_)
    advance.rest
  · rw [ScansTo, closed, open_eq, before, rest, scan, count, counts.taken_eq]
  · rw [count, OpenReference.openBraces_eq_zero_iff, List.append_eq_nil_iff] at zero
    exact counts.closed zero.1

theorem scansTo_of_none {advance : Advance} {more : List Char}
    (none_open : markup.references = []) (taken : advance.taken = c :: more)
    (unbraced : Unbraced more)
    (pass : Bracket.pass place c text .none = ([], advance.markup.bracket))
    (whole : advance.taken ++ advance.rest = c :: text) :
    markup.ScansTo place (c :: text) advance := by
  have nothing : markup.bracket = .none := by simp [OpenMarkup.bracket, none_open]
  have closed (stop : Nat) : markup.closedBy advance.markup stop = [] := by
    simp [closedBy, none_open]
  have rest : text = more ++ advance.rest := by
    rw [taken, List.cons_append] at whole
    exact (List.cons_eq_cons.mp whole).2.symm
  rw [ScansTo, closed, nothing, Bracket.scan, pass, taken, width_cons, ← Nat.add_assoc, rest]
  dsimp only
  rw [Bracket.scan_unbraced unbraced _ _ _ (count_ne_zero advance.markup)]

/-- Where no reference is open, a step reads plain text or opens a reference. -/
theorem step_of_none (tagless : markup.Tagless) (none_open : markup.references = [])
    (notLess : c ≠ '<') (settings : Settings) (place : Nat) (text : List Char) :
    markup.step settings place c text = markup.stepText c text ∧
        (c = '\x7b' → OpenReference.name? text = .none) ∨
      markup.step settings place c text = markup.stepOpen settings place text ∧ c = '\x7b' ∧
        (OpenReference.name? text).isSome = true := by
  have same (change : Nat → Nat) : markup.withDepth change = markup := by
    rw [withDepth, none_open]
  have step : markup.step settings place c text = markup.stepRunning settings place c text := by
    simp only [OpenMarkup.step, tagless.tag, none_open]
  rw [step, stepRunning, if_neg notLess]
  split
  · next brace =>
    cases found : OpenReference.name? text with
    | none =>
      left
      rw [stepOpen, found, brace]
      exact ⟨congrArg (·.stepText '\x7b' text) (same (· + 1)), fun _ => rfl⟩
    | some parts => exact .inr ⟨rfl, brace, rfl⟩
  · next other =>
    refine .inl ⟨?_, fun brace => absurd brace other⟩
    rw [stepClose, none_open]
    split
    · next close => rw [close]
    · rfl

/-- Where no reference is open, nothing but `{@name` opens one. -/
theorem scansTo_step_of_none (tagless : markup.Tagless) (none_open : markup.references = [])
    (notLess : c ≠ '<') (settings : Settings) (place : Nat) (text : List Char) :
    markup.ScansTo place (c :: text) (markup.step settings place c text) ∧
      (markup.step settings place c text).markup.Tagless := by
  have whole := append_step settings markup place c text
  have nothing : markup.bracket = .none := by simp [OpenMarkup.bracket, none_open]
  rcases step_of_none tagless none_open notLess settings place text with
    ⟨step, unopened⟩ | ⟨step, rfl, named⟩
  · refine ⟨scansTo_of_none none_open ?_ (unbraced_of_takeWhile text) ?_ whole, ?_⟩
    · simp [step, stepText, Advance.taken]
    · have after : (markup.step settings place c text).markup = markup := by rw [step, stepText]
      rw [after, nothing, Bracket.pass]
      split
      · next brace => rw [unopened brace]; rfl
      · rfl
    · rw [step]
      exact tagless
  · obtain ⟨⟨name, rest⟩, found⟩ := Option.isSome_iff_exists.mp named
    rw [stepOpen, found] at step
    rw [step] at whole ⊢
    refine ⟨scansTo_of_none none_open ?_ (OpenReference.unbraced_name found) ?_ whole,
      tagless.tag, tagless.verbatim⟩
    · simp [Advance.taken]
    · simp [Bracket.pass, found, OpenMarkup.bracket, none_open]

/-- In a body that is left out, the braces are counted up to the one that closes it. -/
theorem scansTo_step_of_excluded (tagless : markup.Tagless)
    (references : markup.references = reference :: outer) (excluded : reference.mode = .excluded)
    (settings : Settings) (place : Nat) (text : List Char) :
    markup.ScansTo place (c :: text) (markup.step settings place c text) ∧
      (markup.step settings place c text).markup.Tagless := by
  have step : markup.step settings place c text =
      markup.stepExcluded settings reference outer (c :: text) := by
    simp only [OpenMarkup.step, tagless.tag, references, excluded]
  obtain ⟨⟨start, name, count⟩, before, total⟩ := exists_bracket references
  dsimp only at total
  have body := Bracket.scan_splitExcluded start name (OpenReference.openBraces outer) place
    reference.depth (c :: text)
  rw [step, stepExcluded, ScansTo, before, total]
  rcases split : OpenReference.splitExcluded reference.depth (c :: text) with
    ⟨taken, rest, reached⟩
  rw [split] at body
  rw [body]
  refine ⟨?_, ?_⟩
  · cases rest with
    | nil =>
      obtain ⟨closed, open_eq⟩ := closedBy_and_bracket
        { markup with references := { reference with depth := reached } :: outer }
        [{ reference with depth := reached }] before references rfl (by simp) (place + width taken)
      simp [Advance.taken, closed, open_eq]
    | cons brace rest =>
      obtain ⟨rfl, rfl⟩ := OpenReference.eq_of_splitExcluded split
      obtain ⟨closed, open_eq⟩ := closedBy_and_bracket { markup with references := outer } []
        before references rfl (by simp) (place + width taken + width ['\x7d'])
      have last := Bracket.scan_cons_append (place + width taken)
        ⟨start, name, 0 + 1 + OpenReference.openBraces outer⟩ '\x7d' unbraced_nil
        (fun _ => rfl) rest
      have count : countAfter '\x7d' (0 + 1 + OpenReference.openBraces outer) =
          OpenReference.openBraces ([] ++ outer) := by
        rw [countAfter, if_neg (by decide), if_pos rfl, List.nil_append]
        omega
      have taken_eq : width (Advance.taken ⟨[⟨.argument, false, taken⟩,
          ⟨.markup, settings.referencesDivide, ['\x7d']⟩], { markup with references := outer },
          rest⟩) = width taken + width ['\x7d'] := by
        simp [Advance.taken]
      dsimp only at last ⊢
      rw [taken_eq, ← Nat.add_assoc, closed, open_eq, ← count]
      exact last
  · cases rest <;> exact ⟨tagless.tag, tagless.verbatim⟩

/-- What is not in a text is not in what a step leaves of it. -/
theorem not_mem_rest_of_not_mem {d : Char} (absent : d ∉ c :: text) :
    d ∉ (markup.step settings place c text).rest := by
  intro member
  exact absent (append_step settings markup place c text ▸ List.mem_append_right _ member)

/-- Counting the braces follows a step, whatever the policies are. -/
theorem scansTo_step (tagless : markup.Tagless) (notLess : c ≠ '<') (settings : Settings)
    (place : Nat) (text : List Char) :
    markup.ScansTo place (c :: text) (markup.step settings place c text) ∧
      (markup.step settings place c text).markup.Tagless := by
  cases references : markup.references with
  | nil => exact scansTo_step_of_none tagless references notLess settings place text
  | cons reference outer =>
    by_cases excluded : reference.mode = .excluded
    · exact scansTo_step_of_excluded tagless references excluded settings place text
    · obtain ⟨more, inner, counts⟩ :=
        exists_countsOne tagless references excluded notLess settings place text
      refine ⟨scansTo_of_countsOne references counts (append_step settings markup place c text), ?_⟩
      rw [counts.markup_eq]
      exact ⟨tagless.tag, tagless.verbatim⟩

/-! ### Texts -/

/-- The outermost references that end while a text is read, each from its opening brace through the
brace that closes it. -/
def closedReferences (settings : Settings) (markup : OpenMarkup) (place : Nat) :
    List Char → List ByteRange
  | [] => []
  | c :: text =>
    let advance := markup.step settings place c text
    let stop := place + width advance.taken
    markup.closedBy advance.markup stop ++
      closedReferences settings advance.markup stop advance.rest
termination_by text => text.length
decreasing_by exact length_step_lt settings markup place c text

/-- A text without tags is read like braces are counted: the same outermost references end in it,
and the same one is open behind it with as many braces. -/
theorem scan_eq (tagless : markup.Tagless) (settings : Settings) (place : Nat)
    (noTag : '<' ∉ text) :
    Bracket.scan place markup.bracket text =
        (markup.closedReferences settings place text, (markup.read settings place text).2.bracket) ∧
      (markup.read settings place text).2.Tagless := by
  fun_induction read settings markup place text with
  | case1 => exact ⟨by rw [closedReferences]; rfl, tagless⟩
  | case2 markup place c text advance pieces last rest ih =>
    have notLess : c ≠ '<' := fun less => noTag (less ▸ List.mem_cons_self)
    obtain ⟨scans, next⟩ := scansTo_step tagless notLess settings place text
    obtain ⟨behind, final⟩ := ih next (not_mem_rest_of_not_mem noTag)
    rw [rest] at behind final
    refine ⟨?_, final⟩
    rw [scans, closedReferences, behind]

end OpenMarkup

end CommentProse
