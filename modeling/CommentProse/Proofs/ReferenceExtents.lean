import CommentProse.Proofs.Coverage
import CommentProse.Proofs.Markup.Policies

/-! # Where references end

Counting braces line after line, from the `{@name` that opens a reference outside of all others to
the brace that closes it, or to the edge where it is given up, says which ranges the outermost
references cover and which of them are reported as unfinished. Lines without tags are read with the
same result under all settings (`OpenMarkup.scanLines_eq`), and all that is outside of these ranges
is prose, so what a more open policy changes is that more of a reference is prose
(`SpannedLine.references_end_by_braces`).
-/

namespace CommentProse

namespace CommentLine

/-- The part of a line in which markup is read: what is behind the head of a tag line, or all of
the content. -/
def free (line : CommentLine) : Fragment := (line.tagHead?.map TagHead.body).getD line.content

/-- The free part is the end of the line. -/
theorem exists_text_eq_append_free (line : CommentLine) : ∃ front,
    line.text = front ++ line.free.text ∧ line.free.start = line.content.start + width front := by
  rw [free]
  cases headed : line.tagHead? with
  | none => exact ⟨[], rfl, rfl⟩
  | some head =>
    obtain ⟨front, parts, start, -⟩ := (TagHead.tiles_of_parse? headed).isSpannedBy
    exact ⟨front, parts, start⟩

theorem mem_of_mem_free {line : CommentLine} {c : Char} (member : c ∈ line.free.text) :
    c ∈ line.text := by
  obtain ⟨front, parts, -⟩ := line.exists_text_eq_append_free
  rw [parts]
  exact List.mem_append_right front member

theorem start_le_free_start (line : CommentLine) : line.start ≤ line.free.start := by
  obtain ⟨front, -, start⟩ := line.exists_text_eq_append_free
  rw [start]
  exact (Nat.le_add_right _ _).trans (Nat.le_add_right _ _)

theorem free_stop (line : CommentLine) : line.free.stop = line.stop := by
  obtain ⟨front, parts, start⟩ := line.exists_text_eq_append_free
  have text : line.content.text = front ++ line.free.text := parts
  rw [stop, Fragment.stop, Fragment.stop, start, text, width_append, Nat.add_assoc]

end CommentLine

/-! ### The specification -/

namespace Bracket

/-- The reference that is given up, if one is open: it reaches up to the end of the last line. -/
def unfinished (reach : Nat) (bracket : Option Bracket) : List Unfinished :=
  (bracket.map fun bracket => ⟨.reference bracket.name, ⟨bracket.start, reach⟩⟩).toList

/-- Counts the braces of lines: the outermost references that are closed in them, and those that are
given up before a tag line, before a blank line or at the end. -/
def scanLines (reach : Nat) (bracket : Option Bracket) :
    List CommentLine → List ByteRange × List Unfinished
  | [] => ([], unfinished reach bracket)
  | line :: lines =>
    let (given, carried) :=
      if line.edge?.isSome then (unfinished reach bracket, none) else ([], bracket)
    let (closed, last) := scan line.free.start carried line.free.text
    let (later, behind) := scanLines line.stop last lines
    (closed ++ later, given ++ behind)

/-- A reference that is open is closed or given up further on, not before the line that was read
last. -/
theorem scanLines_covers (reach : Nat) (bracket : Bracket) {lines : List CommentLine}
    (later : ∀ line ∈ lines, reach ≤ line.start)
    (ordered : lines.Pairwise fun line later => line.stop < later.start) :
    (∃ range ∈ (scanLines reach (some bracket) lines).1,
        range.start = bracket.start ∧ reach ≤ range.stop) ∨
      ∃ item ∈ (scanLines reach (some bracket) lines).2,
        item.range.start = bracket.start ∧ reach ≤ item.range.stop := by
  induction lines generalizing reach bracket with
  | nil => exact .inr ⟨_, List.mem_singleton_self _, rfl, Nat.le_refl reach⟩
  | cons line lines ih =>
    obtain ⟨behind, rest⟩ := List.pairwise_cons.mp ordered
    have first : reach ≤ line.start := later line List.mem_cons_self
    by_cases edge : line.edge?.isSome = true
    · rw [scanLines, if_pos edge]
      exact .inr ⟨_, List.mem_cons_self, rfl, Nat.le_refl reach⟩
    · rw [scanLines, if_neg edge]
      rcases scan_covers line.free.start bracket line.free.text with
        ⟨range, member, start, past⟩ | ⟨last, open_, start⟩
      · have reached := first.trans line.start_le_free_start
        exact .inl ⟨range, List.mem_append_left _ member, start, by omega⟩
      · have forward := DocComment.start_le_stop line
        dsimp only
        rw [open_]
        rcases ih line.stop last (fun below member => (behind below member).le) rest with
          ⟨range, member, same, past⟩ | ⟨item, member, same, past⟩
        · exact .inl ⟨range, List.mem_append_right _ member, same.trans start, by omega⟩
        · exact .inr ⟨item, List.mem_append_right _ member, same.trans start, by omega⟩

end Bracket

namespace OpenMarkup

variable {first second settings : Settings} {markup other : OpenMarkup} {line : CommentLine}
  {lines : List CommentLine}

/-- The outermost references that end in lines. -/
def closedReferencesIn (settings : Settings) (markup : OpenMarkup) :
    List CommentLine → List ByteRange
  | [] => []
  | line :: lines =>
    let carried := markup.openAt line
    carried.closedReferences settings line.free.start line.free.text ++
      closedReferencesIn settings (carried.readContent settings line).2 lines

/-! ### Lines -/

theorem readContent_eq (settings : Settings) (markup : OpenMarkup) (line : CommentLine) :
    markup.readContent settings line =
      ((line.tagHead?.map TagHead.spans).getD [] ++ (markup.readLine settings line.free).1,
        (markup.readLine settings line.free).2) := by
  rw [readContent, CommentLine.free]
  cases line.tagHead? <;> rfl

/-- All that is given up where no tag and no element is open is a reference. -/
theorem Tagless.unfinished_eq (tagless : markup.Tagless) (edge : Edge) :
    markup.unfinished edge = Bracket.unfinished markup.reach markup.bracket := by
  simp [OpenMarkup.unfinished, unfinishedTag, unfinishedElement, tagless.tag, tagless.verbatim,
    unfinishedReference, Bracket.unfinished, OpenMarkup.bracket, Function.comp_def]

theorem Tagless.openAt (tagless : markup.Tagless) (line : CommentLine) :
    (markup.openAt line).Tagless := by
  rw [OpenMarkup.openAt]
  cases line.edge? with
  | none => exact tagless
  | some edge => exact ⟨rfl, by simp [closed, tagless.verbatim]⟩

/-- What is given up before a line, and what is open at its start. -/
theorem Tagless.before_eq (tagless : markup.Tagless) (line : CommentLine) :
    (if line.edge?.isSome then (Bracket.unfinished markup.reach markup.bracket, .none)
      else ([], markup.bracket)) =
      (markup.unfinishedBefore line, (markup.openAt line).bracket) := by
  rw [unfinishedBefore, OpenMarkup.openAt]
  cases line.edge? with
  | none => rfl
  | some edge => exact Prod.ext (tagless.unfinished_eq edge).symm rfl

theorem Tagless.readContent (tagless : markup.Tagless) (settings : Settings)
    (noTag : '<' ∉ line.text) :
    ((markup.openAt line).readContent settings line).2.Tagless := by
  obtain ⟨-, final⟩ := scan_eq (tagless.openAt line) settings line.free.start
    (mt CommentLine.mem_of_mem_free noTag)
  rw [readContent_eq]
  exact ⟨final.tag, final.verbatim⟩

/-- Lines without tags are read like braces are counted: the same outermost references end in them,
and the same ones are given up. -/
theorem scanLines_eq (tagless : markup.Tagless) (settings : Settings)
    (noTag : ∀ line ∈ lines, '<' ∉ line.text) :
    Bracket.scanLines markup.reach markup.bracket lines =
      (markup.closedReferencesIn settings lines, (markup.readLines settings lines).2) := by
  induction lines generalizing markup with
  | nil => exact Prod.ext rfl (tagless.unfinished_eq .commentEnd).symm
  | cons line lines ih =>
    obtain ⟨here, later⟩ := List.forall_mem_cons.mp noTag
    obtain ⟨scan, -⟩ := scan_eq (tagless.openAt line) settings line.free.start
      (mt CommentLine.mem_of_mem_free here)
    have behind := ih (tagless.readContent settings here) later
    rw [reach_readContent, readContent_eq] at behind
    rw [Bracket.scanLines, tagless.before_eq]
    dsimp only
    rw [scan]
    dsimp only
    rw [closedReferencesIn, readLines, readContent_eq]
    exact Prod.ext (congrArg (_ ++ ·.1) behind) (congrArg (_ ++ ·.2) behind)

/-! ### Outside of references -/

/-- Nothing that is open began behind `place`. -/
def BegunBy (place : Nat) (markup : OpenMarkup) : Prop :=
  markup.OpenedAs fun _ offset => offset ≤ place

theorem BegunBy.start_le {place : Nat} (begun : markup.BegunBy place) {bracket : Bracket}
    (open_ : markup.bracket = some bracket) : bracket.start ≤ place := by
  obtain ⟨outermost, last, rfl⟩ := Option.map_eq_some_iff.mp open_
  exact begun.references outermost (List.mem_of_getLast? last)

theorem exists_bracket_of_ne_nil (open_ : markup.references ≠ []) :
    ∃ bracket, markup.bracket = some bracket := by
  obtain ⟨reference, outer, references⟩ := List.exists_cons_of_ne_nil open_
  obtain ⟨bracket, open_, -⟩ := exists_bracket references
  exact ⟨bracket, open_⟩

/-- A reference that is open is closed further on in the text, or still open at its end. -/
theorem covers_of_open (tagless : markup.Tagless) (settings : Settings) (place : Nat)
    {text : List Char} (noTag : '<' ∉ text) {bracket : Bracket}
    (open_ : markup.bracket = some bracket) :
    (∃ range ∈ markup.closedReferences settings place text,
        range.start = bracket.start ∧ place < range.stop) ∨
      ∃ last, (markup.read settings place text).2.bracket = some last ∧
        last.start = bracket.start := by
  have covers := Bracket.scan_covers place bracket text
  rw [← open_, (scan_eq tagless settings place noTag).1] at covers
  exact covers

/-- A step that takes a byte outside of all references reads plain text. -/
theorem marks_step_of_outside (tagless : markup.Tagless) {place : Nat}
    (begun : markup.BegunBy place) {c : Char} {text : List Char} (noTag : '<' ∉ c :: text)
    {offset : Nat} (lower : place ≤ offset)
    (upper : offset < place + width (markup.step settings place c text).taken)
    (closed : ∀ range ∈ markup.closedReferences settings place (c :: text), offset ∉ range)
    (still : ∀ bracket, (markup.read settings place (c :: text)).2.bracket = some bracket →
      offset < bracket.start) :
    Piece.marks (markup.step settings place c text).pieces =
      (markup.step settings place c text).taken.map (·, .prose) := by
  have notLess : c ≠ '<' := fun less => noTag (less ▸ List.mem_cons_self)
  rw [closedReferences] at closed
  rw [read_cons] at still
  obtain ⟨ends, behind⟩ := List.forall_mem_append.mp closed
  by_cases open_ : (markup.step settings place c text).markup.references = []
  · by_cases none_open : markup.references = []
    · rcases step_of_none tagless none_open notLess settings place text with
        ⟨step, -⟩ | ⟨step, -, named⟩
      · simp [step, stepText, Advance.taken, tagless.verbatim]
      · obtain ⟨⟨name, rest⟩, found⟩ := Option.isSome_iff_exists.mp named
        rw [step, stepOpen, found] at open_
        cases open_
    · -- The step closes the outermost reference, which has the byte in it.
      obtain ⟨bracket, outermost⟩ := exists_bracket_of_ne_nil none_open
      obtain ⟨last, final, rfl⟩ := Option.map_eq_some_iff.mp outermost
      rw [closedBy, if_pos open_, final] at ends
      exact absurd ⟨(begun.start_le outermost).trans lower, upper⟩
        (ends ⟨last.start, _⟩ (by simp))
  · -- A reference is open behind the step, and it began no later than the step.
    have next := (scansTo_step tagless notLess settings place text).2
    have begunHere : (markup.step settings place c text).markup.BegunBy place :=
      OpenedAs.step begun settings fun _ _ => Nat.le_refl place
    obtain ⟨bracket, outermost⟩ := exists_bracket_of_ne_nil open_
    have start := (begunHere.start_le outermost).trans lower
    rcases covers_of_open next settings (place + width _)
        (not_mem_rest_of_not_mem noTag) outermost with
      ⟨range, member, same, past⟩ | ⟨last, final, same⟩
    · exact absurd ⟨same ▸ start, upper.trans past⟩ (behind range member)
    · exact absurd (still last final) (Nat.not_lt.mpr (same ▸ start))

/-- What is outside of all references is prose. -/
theorem exists_prose_of_outside (tagless : markup.Tagless) {place : Nat}
    (begun : markup.BegunBy place) {text : List Char} (noTag : '<' ∉ text) {offset : Nat}
    (lower : place ≤ offset) (upper : offset < place + width text)
    (closed : ∀ range ∈ markup.closedReferences settings place text, offset ∉ range)
    (still : ∀ bracket, (markup.read settings place text).2.bracket = some bracket →
      offset < bracket.start) :
    ∃ front c back, Piece.marks (markup.read settings place text).1 =
        front ++ (c, .prose) :: back ∧
      place + width (front.map Prod.fst) ≤ offset ∧
      offset < place + width (front.map Prod.fst) + c.utf8Size := by
  induction size : text.length using Nat.strong_induction_on generalizing markup place text with
  | _ length ih =>
  subst size
  cases text with
  | nil => exact absurd upper (Nat.not_lt.mpr lower)
  | cons c text =>
    rw [marks_read_cons]
    by_cases here : offset < place + width (markup.step settings place c text).taken
    · rw [marks_step_of_outside tagless begun noTag lower here closed still]
      exact exists_mark_of_word [] _ lower here
    · have notLess : c ≠ '<' := fun less => noTag (less ▸ List.mem_cons_self)
      have next := (scansTo_step tagless notLess settings place text).2
      have begunBehind : (markup.step settings place c text).markup.BegunBy
          (place + width (markup.step settings place c text).taken) :=
        OpenedAs.step (begun.mono fun _ _ before => before.trans (Nat.le_add_right _ _)) settings
          fun _ _ => Nat.le_add_right _ _
      have total : width (c :: text) = width (markup.step settings place c text).taken +
          width (markup.step settings place c text).rest := by
        rw [← append_step settings markup place c text, width_append]
      rw [closedReferences] at closed
      rw [read_cons] at still
      obtain ⟨front, d, back, marks, first, last⟩ := ih _
        (length_step_lt settings markup place c text) next begunBehind
        (not_mem_rest_of_not_mem noTag) (Nat.not_lt.mp here) (by omega)
        (List.forall_mem_append.mp closed).2 still rfl
      have taken : (Piece.marks (markup.step settings place c text).pieces).map Prod.fst =
          (markup.step settings place c text).taken := Piece.map_fst_marks _
      refine ⟨Piece.marks (markup.step settings place c text).pieces ++ front, d, back, ?_, ?_⟩
      · rw [marks, List.append_assoc]
      · rw [List.map_append, width_append, taken, ← Nat.add_assoc]
        exact ⟨first, last⟩

/-- A reference that is open is closed or given up further on in the lines. -/
theorem coversIn_of_open (tagless : markup.Tagless) (settings : Settings)
    (noTag : ∀ line ∈ lines, '<' ∉ line.text) (later : ∀ line ∈ lines, markup.reach ≤ line.start)
    (ordered : lines.Pairwise fun line later => line.stop < later.start) {bracket : Bracket}
    (open_ : markup.bracket = some bracket) :
    (∃ range ∈ markup.closedReferencesIn settings lines,
        range.start = bracket.start ∧ markup.reach ≤ range.stop) ∨
      ∃ item ∈ (markup.readLines settings lines).2,
        item.range.start = bracket.start ∧ markup.reach ≤ item.range.stop := by
  have covers := Bracket.scanLines_covers markup.reach bracket later ordered
  rw [← open_, scanLines_eq tagless settings noTag] at covers
  exact covers

/-- What is outside of all references in lines is prose when the lines have been read. -/
theorem prose_outside_readLines (tagless : markup.Tagless) (settings : Settings)
    (begun : markup.BegunBy markup.reach) (noTag : ∀ line ∈ lines, '<' ∉ line.text)
    (later : ∀ line ∈ lines, markup.reach ≤ line.start)
    (ordered : lines.Pairwise fun line later => line.stop < later.start) :
    List.Forall₂ (fun line spans => ∀ offset ∈ line.free.range,
        (∀ range ∈ markup.closedReferencesIn settings lines, offset ∉ range) →
        (∀ item ∈ (markup.readLines settings lines).2, offset ∉ item.range) →
        Span.RoleAt spans offset .prose)
      lines (markup.readLines settings lines).1 := by
  induction lines generalizing markup with
  | nil => exact .nil
  | cons line lines ih =>
    obtain ⟨here, others⟩ := List.forall_mem_cons.mp noTag
    obtain ⟨behind, rest⟩ := List.pairwise_cons.mp ordered
    have free := mt CommentLine.mem_of_mem_free here
    have starts := (later line List.mem_cons_self).trans line.start_le_free_start
    have forward : line.free.start ≤ line.stop := line.free_stop ▸ Nat.le_add_right _ _
    have begunAt : (markup.openAt line).BegunBy line.free.start :=
      (OpenedAs.openAt begun).mono fun _ _ before => before.trans starts
    have reach := reach_readContent settings (markup.openAt line) line
    have begunBehind : ((markup.openAt line).readContent settings line).2.BegunBy line.stop :=
      OpenedAs.readContent (begunAt.mono fun _ _ before => before.trans forward) settings
        fun _ _ opens => opens.bounds.2.le
    have last := tagless.readContent settings here
    have above : ∀ below ∈ lines,
        ((markup.openAt line).readContent settings line).2.reach ≤ below.start :=
      fun below member => reach ▸ (behind below member).le
    rw [readLines]
    refine .cons (fun offset inside closed given => ?_) ?_
    · rw [readContent_eq]
      have still : ∀ bracket, ((markup.openAt line).read settings line.free.start
          line.free.text).2.bracket = some bracket → offset < bracket.start := by
        intro bracket open_
        have carried : ((markup.openAt line).readContent settings line).2.bracket =
            some bracket := by rw [readContent_eq]; exact open_
        have inLine : offset < line.stop := line.free_stop ▸ inside.2
        by_contra reached
        rcases coversIn_of_open last settings others above rest carried with
          ⟨range, member, start, past⟩ | ⟨item, member, start, past⟩
        · refine closed range (List.mem_append_right _ member) ⟨?_, ?_⟩ <;> omega
        · refine given item (List.mem_append_right _ member) ⟨?_, ?_⟩ <;> omega
      obtain ⟨span, member, covers⟩ := roleAt_readLine_iff.mpr
        (exists_prose_of_outside (tagless.openAt line) begunAt free inside.1 inside.2
          (fun range member => closed range (List.mem_append_left _ member)) still)
      exact ⟨span, List.mem_append_right _ member, covers⟩
    · refine (ih last (reach ▸ begunBehind) others above rest).imp ?_
      intro below spans prose offset inside closed given
      exact prose offset inside (fun range member => closed range (List.mem_append_right _ member))
        fun item member => given item (List.mem_append_right _ member)

/-! ### Prose -/

theorem Narrower.openAt (narrower : markup.Narrower other) (line : CommentLine) :
    (markup.openAt line).Narrower (other.openAt line) := by
  refine ⟨narrower.tagless.openAt line, narrower.otherTagless.openAt line, ?_⟩
  rw [OpenMarkup.openAt, OpenMarkup.openAt]
  cases line.edge? with
  | none => exact narrower.references
  | some edge => exact .running .nil

/-- Whatever is prose to the first reading of a line is prose to the second one, whether or not it
is a tag line. -/
theorem Narrower.readContent (narrower : markup.Narrower other)
    (narrow : first.NarrowerThan second) (noTag : '<' ∉ line.text) :
    Span.LessProse (markup.readContent first line).1 (other.readContent second line).1 ∧
      (markup.readContent first line).2.Narrower (other.readContent second line).2 := by
  obtain ⟨less, final⟩ := narrower.readLine narrow (mt CommentLine.mem_of_mem_free noTag)
  rw [readContent_eq, readContent_eq]
  exact ⟨less.append_left _, final⟩

/-- Whatever is prose to the first reading of lines is prose to the second one. -/
theorem Narrower.readLines (narrower : markup.Narrower other) (narrow : first.NarrowerThan second)
    (noTag : ∀ line ∈ lines, '<' ∉ line.text) :
    List.Forall₂ Span.LessProse (markup.readLines first lines).1
      (other.readLines second lines).1 := by
  induction lines generalizing markup other with
  | nil => exact .nil
  | cons line lines ih =>
    obtain ⟨here, later⟩ := List.forall_mem_cons.mp noTag
    obtain ⟨less, final⟩ := (narrower.openAt line).readContent narrow here
    exact .cons less (ih final later)

end OpenMarkup

/-! ### Spanned lines -/

/-- What is left of prose when unfinished markup has been made markup. -/
theorem Unfinished.roleAt_relabel_prose_iff {unfinished : List Unfinished} {spans : List Span}
    {offset : Nat} :
    Span.RoleAt (relabel unfinished spans) offset .prose ↔
      Span.RoleAt spans offset .prose ∧ ∀ item ∈ unfinished, offset ∉ item.range := by
  constructor
  · rintro ⟨span, member, inside, prose⟩
    obtain ⟨source, among, lower, upper, -, kept⟩ := mem_relabel member
    rw [prose] at kept
    obtain ⟨same, outside⟩ := kept.resolve_left nofun
    exact ⟨⟨source, among, ⟨lower.trans inside.1, Nat.lt_of_lt_of_le inside.2 upper⟩, same.symm⟩,
      fun item given => outside item given offset inside⟩
  · rintro ⟨⟨source, among, inside, prose⟩, outside⟩
    obtain ⟨span, member, here, same⟩ := exists_mem_relabel among inside outside
    exact ⟨span, member, here, same.trans prose⟩

/-- Making markup of the same ranges takes as much prose from both. -/
theorem Span.LessProse.relabel {spans others : List Span} (less : LessProse spans others)
    (unfinished : List Unfinished) :
    LessProse (Unfinished.relabel unfinished spans) (Unfinished.relabel unfinished others) := by
  intro offset prose
  obtain ⟨before, outside⟩ := Unfinished.roleAt_relabel_prose_iff.mp prose
  exact Unfinished.roleAt_relabel_prose_iff.mpr ⟨less offset before, outside⟩

namespace SpannedLine

/-- The same line, with no more of it prose. -/
structure LessProse (line other : SpannedLine) : Prop where
  same : line.line = other.line
  spans : Span.LessProse line.spans other.spans

theorem forall₂_lessProse_zip {spans others : List (List Span)}
    (less : List.Forall₂ Span.LessProse spans others) (lines : List CommentLine)
    (given : List Unfinished) :
    List.Forall₂ LessProse
      ((lines.zip spans).map fun (line, spans) => ⟨line, Unfinished.relabel given spans⟩)
      ((lines.zip others).map fun (line, spans) => ⟨line, Unfinished.relabel given spans⟩) := by
  induction less generalizing lines with
  | nil => simp
  | cons here _ ih =>
    cases lines with
    | nil => exact .nil
    | cons line lines => exact .cons ⟨rfl, here.relabel given⟩ (ih lines)

/-- What is outside of all references is prose in the end. -/
theorem prose_outside (settings : Settings) {lines : List CommentLine}
    (noTag : ∀ line ∈ lines, '<' ∉ line.text)
    (ordered : lines.Pairwise fun line later => line.stop < later.start) {line : SpannedLine}
    (member : line ∈ ofLines settings .none lines) {offset : Nat}
    (inside : offset ∈ line.line.free.range)
    (closed : ∀ range ∈ OpenMarkup.none.closedReferencesIn settings lines, offset ∉ range)
    (given : ∀ item ∈ (OpenMarkup.none.readLines settings lines).2, offset ∉ item.range) :
    Span.RoleAt line.spans offset .prose := by
  have read := OpenMarkup.prose_outside_readLines ⟨rfl, rfl⟩ settings
    (OpenMarkup.openedAs_idle 0) noTag (fun line _ => Nat.zero_le line.start) ordered
  obtain ⟨⟨written, spans⟩, paired, rfl⟩ := List.mem_map.mp member
  have prose := (List.forall₂_iff_zip.mp read).2 paired offset inside closed given
  exact Unfinished.roleAt_relabel_prose_iff.mpr ⟨prose, given⟩

/-- Whatever the policies for inline tags are, the outermost references of lines without tags begin
at a `{@name` outside of all others and end at the brace where as many braces are closed as were
opened since, or are given up at the next edge, and all that is outside of them is prose. So
policies under which more is read only add prose, inside of the same references. -/
theorem references_end_by_braces (lines : List CommentLine)
    (noTag : ∀ line ∈ lines, '<' ∉ line.text) :
    let counted := Bracket.scanLines 0 none lines
    (∀ settings, OpenMarkup.none.closedReferencesIn settings lines = counted.1 ∧
      (OpenMarkup.none.readLines settings lines).2 = counted.2) ∧
    (lines.Pairwise (fun line later => line.stop < later.start) → ∀ settings,
      ∀ line ∈ ofLines settings .none lines, ∀ offset ∈ line.line.free.range,
        (∀ range ∈ counted.1 ++ counted.2.map Unfinished.range, offset ∉ range) →
        Span.RoleAt line.spans offset .prose) ∧
    ∀ first second : Settings, first.NarrowerThan second →
      List.Forall₂ LessProse (ofLines first .none lines) (ofLines second .none lines) := by
  have fresh : OpenMarkup.none.Tagless := ⟨rfl, rfl⟩
  have same (settings : Settings) :
      Bracket.scanLines 0 none lines = (OpenMarkup.none.closedReferencesIn settings lines,
        (OpenMarkup.none.readLines settings lines).2) :=
    OpenMarkup.scanLines_eq fresh settings noTag
  intro counted
  refine ⟨fun settings => ?_, fun ordered settings line member offset inside outside => ?_,
    fun first second narrow => ?_⟩
  · simp only [counted, same settings, and_self]
  · simp only [counted, same settings] at outside
    obtain ⟨closed, given⟩ := List.forall_mem_append.mp outside
    exact prose_outside settings noTag ordered member inside closed
      fun item among => given item.range (List.mem_map_of_mem among)
  · have narrower : OpenMarkup.none.Narrower .none := ⟨fresh, fresh, .running .nil⟩
    have unfinished : (OpenMarkup.none.readLines first lines).2 =
        (OpenMarkup.none.readLines second lines).2 :=
      (Prod.mk.inj ((same first).symm.trans (same second))).2
    rw [ofLines, ofLines, unfinished]
    exact forall₂_lessProse_zip (narrower.readLines narrow noTag) lines _

/-- A reference in a reference, plain braces around it, and a reference that is given up at a blank
line: `M`, `b` and `d` are read if the body of a link is, and the link ends where it did. -/
theorem references_end_by_braces_nested :
    let lines : List CommentLine :=
      [⟨3, [' '], "a \x7b@link M \x7bb \x7b@code c\x7d\x7d".toList, ['\n']⟩,
        ⟨29, " * ".toList, "d\x7d e \x7b@code open \x7b".toList, ['\n']⟩,
        ⟨51, " *".toList, [], ['\n']⟩, ⟨54, " * ".toList, "x\x7d y".toList, []⟩]
    let prose := { Settings.standard with inlineTags := [("link", .prose)] }
    let read settings := (((ofLines settings .none lines).flatMap spans).filter
      (·.role = .prose)).map Span.range
    (∀ line ∈ lines, '<' ∉ line.text) ∧
      lines.Pairwise (fun line later => line.stop < later.start) ∧
      Settings.standard.NarrowerThan prose ∧
      (∀ settings, OpenMarkup.none.closedReferencesIn settings lines = [⟨6, 34⟩] ∧
        (OpenMarkup.none.readLines settings lines).2 = [⟨.reference "code", ⟨37, 50⟩⟩]) ∧
      (∀ settings, ∀ line ∈ ofLines settings .none lines, ∀ offset ∈ line.line.free.range,
        (∀ range ∈ [(⟨6, 34⟩ : ByteRange), ⟨37, 50⟩], offset ∉ range) →
        Span.RoleAt line.spans offset .prose) ∧
      List.Forall₂ LessProse (ofLines .standard .none lines) (ofLines prose .none lines) ∧
      read .standard = [⟨4, 6⟩, ⟨34, 37⟩, ⟨57, 61⟩] ∧
      read prose = [⟨4, 6⟩, ⟨12, 18⟩, ⟨27, 28⟩, ⟨32, 33⟩, ⟨34, 37⟩, ⟨57, 61⟩] := by
  intro lines prose read
  have noTag : ∀ line ∈ lines, '<' ∉ line.text := by decide
  have ordered : lines.Pairwise (fun line later => line.stop < later.start) := by decide +kernel
  have narrow : Settings.standard.NarrowerThan prose := by
    intro name
    by_cases link : name = "link"
    · subst link
      decide
    · have same : prose.bodyPolicy name = Settings.standard.bodyPolicy name := by
        simp [prose, Settings.bodyPolicy, Settings.standard, List.lookup_cons,
          beq_false_of_ne link]
      rw [same]
      exact Nat.le_refl _
  obtain ⟨extents, outside, less⟩ := references_end_by_braces lines noTag
  have counted : Bracket.scanLines 0 none lines =
      ([⟨6, 34⟩], [⟨.reference "code", ⟨37, 50⟩⟩]) := by decide +kernel
  rw [counted] at extents outside
  have readStandard : read .standard = [⟨4, 6⟩, ⟨34, 37⟩, ⟨57, 61⟩] := by decide +kernel
  have readProse : read prose = [⟨4, 6⟩, ⟨12, 18⟩, ⟨27, 28⟩, ⟨32, 33⟩, ⟨34, 37⟩, ⟨57, 61⟩] := by
    decide +kernel
  exact ⟨noTag, ordered, narrow, extents, outside ordered, less _ _ narrow, readStandard,
    readProse⟩

end SpannedLine

end CommentProse
