import CommentProse.Proofs.IssueOrder

/-! # What can be open behind lines

Between two lines markup is given up at an edge or stays open, so what is open depends on all lines
read before. `OpenMarkup.OpenBehind` relates lines to what may be open behind them, in a comment
(`OpenMarkup.openBehind_lines`) or wherever else lines are read. All of it was opened in these lines
and is nested, so the outermost reference that is given up covers whatever stands in it
(`OpenMarkup.openBehind_isNested`).
-/

namespace CommentProse

/-- The construct is opened at the offset, in the fragment. -/
def Fragment.OpensAt (content : Fragment) (construct : Construct) (offset : Nat) : Prop :=
  ∃ front back, content.text = front ++ back ∧ offset = content.start + width front ∧
    construct.Opens back

namespace OpenMarkup

/-- What may be open behind lines, of which the last one comes first: lines are read one behind the
other, and at any edges between them markup is given up. -/
inductive OpenBehind (settings : Settings) : List Fragment → OpenMarkup → Prop where
  | none : OpenBehind settings [] none
  | readLine {lines : List Fragment} {markup : OpenMarkup} (content : Fragment)
    (behind : OpenBehind settings lines markup) (apart : markup.reach ≤ content.start) :
    OpenBehind settings (content :: lines) (markup.readLine settings content).2
  | closed {lines : List Fragment} {markup : OpenMarkup} (edge : Edge)
    (behind : OpenBehind settings lines markup) : OpenBehind settings lines (markup.closed edge)

variable {settings : Settings} {lines : List Fragment} {markup : OpenMarkup}

namespace OpenBehind

/-- The reach of open markup is behind all lines that were read. -/
theorem stop_le_reach (behind : markup.OpenBehind settings lines) :
    ∀ line ∈ lines, line.stop ≤ markup.reach := by
  induction behind with
  | none => nofun
  | readLine content behind apart ih =>
    refine List.forall_mem_cons.mpr ⟨Nat.le_refl _, fun line member => ?_⟩
    exact (ih line member).trans (apart.trans (Nat.le_add_right _ _))
  | closed edge behind ih => exact ih

theorem nested (behind : markup.OpenBehind settings lines) : markup.Nested markup.reach := by
  induction behind with
  | none => exact .idle 0 0
  | readLine content behind apart ih => exact (ih.mono apart).readLine
  | closed edge behind ih => exact ih.closed edge

theorem openedAs (behind : markup.OpenBehind settings lines) :
    markup.OpenedAs fun construct offset => ∃ line ∈ lines, line.OpensAt construct offset := by
  induction behind with
  | none => exact openedAs_idle 0
  | readLine content behind apart ih =>
    refine OpenedAs.readLine (ih.mono fun construct offset => ?_) settings ?_
    · rintro ⟨line, member, opens⟩
      exact ⟨line, List.mem_cons_of_mem _ member, opens⟩
    · intro left right parts construct opens
      exact ⟨content, List.mem_cons_self, left, right, parts, rfl, opens⟩
  | closed edge behind ih => exact ih.closed edge

/-! ### The lines of a comment -/

theorem openAt (behind : markup.OpenBehind settings lines) (line : CommentLine) :
    (markup.openAt line).OpenBehind settings lines := by
  rw [OpenMarkup.openAt]
  cases line.edge? with
  | none => exact behind
  | some edge => exact .closed edge behind

theorem readContent (behind : markup.OpenBehind settings lines) {line : CommentLine}
    (apart : markup.reach ≤ line.start) :
    ∃ content, (markup.readContent settings line).2.OpenBehind settings (content :: lines) := by
  have margin : line.start ≤ line.content.start := Nat.le_add_right _ _
  cases headed : line.tagHead? with
  | none =>
    simp only [OpenMarkup.readContent, headed]
    exact ⟨line.content, behind.readLine _ (apart.trans margin)⟩
  | some head =>
    simp only [OpenMarkup.readContent, headed]
    obtain ⟨front, -, start, -⟩ := (TagHead.tiles_of_parse? headed).isSpannedBy
    have body : line.content.start ≤ head.body.start := start ▸ Nat.le_add_right _ _
    exact ⟨head.body, behind.readLine _ ((apart.trans margin).trans body)⟩

theorem behind_lines {later : List CommentLine} (behind : markup.OpenBehind settings lines)
    (after : ∀ line ∈ later, markup.reach ≤ line.start)
    (ordered : later.Pairwise fun line next => line.stop < next.start) :
    ∃ read, (markup.behind settings later).OpenBehind settings read := by
  induction later generalizing markup lines with
  | nil => exact ⟨lines, behind⟩
  | cons line later ih =>
    have first : (markup.openAt line).reach ≤ line.start := by
      have apart := after line List.mem_cons_self
      rw [OpenMarkup.openAt]
      cases line.edge? with
      | none => exact apart
      | some edge => exact apart
    obtain ⟨content, read⟩ := (behind.openAt line).readContent first
    refine ih read (fun next member => ?_) ordered.of_cons
    rw [reach_readContent]
    exact Nat.le_of_lt (List.rel_of_pairwise_cons ordered member)

end OpenBehind

/-- What is open behind the first lines of a comment, however many, is open in this way. -/
theorem openBehind_lines (settings : Settings) (comment : DocComment) (count : Nat) :
    ∃ read, (none.behind settings (comment.lines.take count)).OpenBehind settings read :=
  OpenBehind.none.behind_lines (fun _ _ => Nat.zero_le _)
    (comment.pairwise_lines.sublist (List.take_sublist count _))

/-! ### The outermost reference -/

/-- The outermost reference began first. -/
theorem Nested.start_le_of_getLast? {place : Nat} (nested : markup.Nested place)
    {outermost : OpenReference} (last : markup.references.getLast? = some outermost) :
    ∀ reference ∈ markup.references, outermost.start ≤ reference.start := by
  obtain ⟨inner, open_eq⟩ := List.getLast?_eq_some_iff.mp last
  have order := nested.references
  rw [open_eq, List.pairwise_append] at order
  intro reference member
  rw [open_eq] at member
  rcases List.mem_append.mp member with inside | outside
  · exact Nat.le_of_lt (order.2.2 reference inside outermost (List.mem_singleton_self _))
  · rw [List.mem_singleton.mp outside]

/-- Whatever lines are read one behind the other, and at whatever edges markup is given up between
them, what is open then was opened in these lines and is nested: the references began one after the
other, those around the innermost one are read as running text, and a tag began last of all and
stands in running text. The outermost reference is given up with a range that covers everything that
was read from the start of any of the references on, and that of an unfinished tag. -/
theorem openBehind_isNested (behind : markup.OpenBehind settings lines) :
    markup.Nested markup.reach ∧
    markup.OpenedAs (fun construct offset => ∃ line ∈ lines, line.OpensAt construct offset) ∧
    ∀ edge outermost, markup.references.getLast? = some outermost →
      let given : Unfinished := ⟨.reference outermost.name, ⟨outermost.start, markup.reach⟩⟩
      given ∈ markup.unfinished edge ∧
      (∀ reference ∈ markup.references, ∀ line ∈ lines, ∀ offset ∈ line.range,
        reference.start ≤ offset → offset ∈ given.range) ∧
      ∀ tag, markup.tag = some tag → ∃ item ∈ markup.unfinished edge,
        item.construct = .tag tag.form.label ∧ item.range.start = tag.start ∧
          item.Inside given := by
  have nested := behind.nested
  refine ⟨nested, behind.openedAs, fun edge outermost last => ⟨?_, ?_, ?_⟩⟩
  · have item : markup.unfinishedReference =
        some ⟨.reference outermost.name, ⟨outermost.start, markup.reach⟩⟩ := by
      rw [unfinishedReference, last, Option.map_some]
    simp [unfinished, item]
  · intro reference member line read offset inside later
    have outside := nested.start_le_of_getLast? last reference member
    have reached := behind.stop_le_reach line read
    exact ⟨outside.trans later, Nat.lt_of_lt_of_le inside.2 reached⟩
  · intro tag open_eq
    have started := (nested.tagInReferences tag open_eq outermost (List.mem_of_getLast? last)).2
    refine ⟨⟨.tag tag.form.label, ⟨tag.start, markup.reach⟩⟩, ?_, rfl, rfl, started, Nat.le_refl _⟩
    simp [unfinished, unfinishedTag, open_eq]

/-- Behind a reference that a blank line gave up, a label waits for its target at the end of a line.
On the next line a tag begins in it, and a quote in the tag. -/
theorem openBehind_isNested_tag_in_label :
    let settings := { Settings.standard with inlineTags := [("link", .label)] }
    let lines : List Fragment := [⟨45, "#m(a b) \x7bc <i t='>".toList⟩,
      ⟨20, "<pre>\x7b@return \x7b@link ".toList⟩, ⟨3, "a \x7b@code <b".toList⟩]
    let first := (none.readLine settings ⟨3, "a \x7b@code <b".toList⟩).2
    let second := ((first.closed .blankLine).readLine settings
      ⟨20, "<pre>\x7b@return \x7b@link ".toList⟩).2
    let third := (second.readLine settings ⟨45, "#m(a b) \x7bc <i t='>".toList⟩).2
    third.OpenBehind settings lines ∧
      first.references = [⟨5, "code", 0, .excluded⟩] ∧
      second.references = [⟨34, "link", 0, .target⟩, ⟨25, "return", 0, .running⟩] ∧
      third = ⟨some ⟨56, .element "i" false, some '\'', false⟩,
        [⟨34, "link", 1, .running⟩, ⟨25, "return", 0, .running⟩], some ⟨20, "pre", 0⟩, 63⟩ ∧
      third.Nested 63 ∧
      ⟨.reference "return", ⟨25, 63⟩⟩ ∈ third.unfinished .blankLine ∧
      (∀ line ∈ lines, ∀ offset ∈ line.range, 34 ≤ offset → 25 ≤ offset ∧ offset < 63) ∧
      ∃ item ∈ third.unfinished .blankLine, item.construct = .tag "i" ∧
        item.Inside ⟨.reference "return", ⟨25, 63⟩⟩ := by
  intro settings lines first second third
  have behind : third.OpenBehind settings lines := by
    refine .readLine _ (.readLine _ (.closed .blankLine (.readLine _ .none ?_)) ?_) ?_
    · decide
    · decide
    · decide
  have state : third = ⟨some ⟨56, .element "i" false, some '\'', false⟩,
      [⟨34, "link", 1, .running⟩, ⟨25, "return", 0, .running⟩], some ⟨20, "pre", 0⟩, 63⟩ := by
    decide +kernel
  obtain ⟨nested, -, given⟩ := openBehind_isNested behind
  rw [state] at nested given ⊢
  obtain ⟨member, covers, inside⟩ := given .blankLine _ rfl
  obtain ⟨item, among, construct, -, within⟩ := inside _ rfl
  refine ⟨state ▸ behind, by decide +kernel, by decide +kernel, rfl, nested, member, ?_,
    item, among, construct, within⟩
  exact covers ⟨34, "link", 1, .running⟩ List.mem_cons_self

end OpenMarkup

end CommentProse
