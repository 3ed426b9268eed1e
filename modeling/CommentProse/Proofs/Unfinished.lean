import CommentProse.Proofs.Comment.Layout
import CommentProse.Proofs.Comment.Outlines
import CommentProse.Proofs.Comment.TagLine
import CommentProse.Proofs.Markup.Openings

/-! # Where unfinished markup stands

Whatever is given up while the lines of a comment are read was opened in a line of the section under
way, and reaches up to the end of the last line of this section that was read
(`OpenMarkup.standsIn_of_mem_readLines`). The invariant that carries this names the lines of the
section that were read so far; a tag line closes everything, so it begins anew there.
-/

namespace CommentProse

/-- The construct is opened at the offset, in the content of the line. -/
def CommentLine.OpensAt (line : CommentLine) (construct : Construct) (offset : Nat) : Prop :=
  ∃ front back, line.text = front ++ back ∧ offset = line.content.start + width front ∧
    construct.Opens back

theorem CommentLine.OpensAt.bounds {line : CommentLine} {construct : Construct} {offset : Nat}
    (opens : line.OpensAt construct offset) :
    line.content.start ≤ offset ∧ offset < line.stop := by
  obtain ⟨front, back, parts, rfl, here⟩ := opens
  have visible := Nat.pos_of_ne_zero (mt width_eq_zero.mp here.ne_nil)
  have total : width line.text = width front + width back := by rw [parts, width_append]
  simp only [stop, content, Fragment.stop]
  omega

/-- The construct is opened at the offset, in one of the lines. -/
def OpenedIn (lines : List CommentLine) (construct : Construct) (offset : Nat) : Prop :=
  ∃ line ∈ lines, line.OpensAt construct offset

namespace Unfinished

/-- Unfinished markup was opened in these lines, and reaches up to the end of one that is not before
the line where it was opened. -/
def StandsIn (lines : List CommentLine) (item : Unfinished) : Prop :=
  ∃ read last rest, lines = read ++ last :: rest ∧
    OpenedIn (read ++ [last]) item.construct item.range.start ∧ item.range.stop = last.stop

variable {lines : List CommentLine} {item : Unfinished}

theorem StandsIn.opened (stands : item.StandsIn lines) :
    OpenedIn lines item.construct item.range.start := by
  obtain ⟨read, last, rest, rfl, ⟨line, member, opens⟩, -⟩ := stands
  refine ⟨line, ?_, opens⟩
  rw [List.append_cons]
  exact List.mem_append_left _ member

theorem StandsIn.exists_last (stands : item.StandsIn lines) :
    ∃ last ∈ lines, item.range.stop = last.stop := by
  obtain ⟨read, last, rest, rfl, -, stop⟩ := stands
  exact ⟨last, List.mem_append_right _ List.mem_cons_self, stop⟩

/-- Where unfinished markup stands in some lines, it stands in more lines around them. -/
theorem StandsIn.within (stands : item.StandsIn lines) (before after : List CommentLine) :
    item.StandsIn (before ++ lines ++ after) := by
  obtain ⟨read, last, rest, rfl, ⟨line, member, opens⟩, stop⟩ := stands
  refine ⟨before ++ read, last, rest ++ after, by simp, ⟨line, ?_, opens⟩, stop⟩
  rw [List.append_assoc]
  exact List.mem_append_right _ member

/-- Unfinished markup covers at least the character that opened it. -/
theorem StandsIn.start_lt_stop (stands : item.StandsIn lines)
    (ordered : lines.Pairwise fun line later => line.stop < later.start) :
    item.range.start < item.range.stop := by
  obtain ⟨read, last, rest, rfl, ⟨line, member, opens⟩, stop⟩ := stands
  have bounds := opens.bounds
  rcases List.mem_append.mp member with earlier | final
  · have order := (List.pairwise_append.mp ordered).2.2 line earlier last List.mem_cons_self
    have forward := DocComment.start_le_stop last
    omega
  · obtain rfl := List.mem_singleton.mp final
    omega

/-- Unfinished markup covers a range between boundaries of every text in which the lines occur. -/
theorem StandsIn.isBoundary (stands : item.StandsIn lines) {text : List Char}
    (occur : ∀ line ∈ lines, line.content.OccursIn text) :
    IsBoundary text item.range.start ∧ IsBoundary text item.range.stop := by
  obtain ⟨line, member, front, back, parts, start, -⟩ := stands.opened
  obtain ⟨last, among, stop⟩ := stands.exists_last
  rw [start, stop]
  refine ⟨?_, (occur last among).isBoundary_stop⟩
  have part := (occur line member).part front back [] (by rw [List.append_nil]; exact parts)
  exact part.isBoundary_start

end Unfinished

namespace OpenMarkup

variable {markup : OpenMarkup} {opened : Construct → Nat → Prop} {line : CommentLine}

/-! ### At an edge -/

theorem openAt_idle (reach : Nat) (line : CommentLine) : (idle reach).openAt line = idle reach := by
  rw [openAt]
  cases line.edge? with
  | none => rfl
  | some edge => cases edge <;> rfl

theorem unfinishedBefore_idle (reach : Nat) (line : CommentLine) :
    (idle reach).unfinishedBefore line = [] := by
  rw [unfinishedBefore]
  cases line.edge? with
  | none => rfl
  | some edge => cases edge <;> rfl

theorem openAt_of_tagHead? (markup : OpenMarkup) (headed : line.tagHead?.isSome = true) :
    markup.openAt line = idle markup.reach := by
  rw [openAt, CommentLine.edge?, if_pos headed]
  rfl

/-- What is given up before a line would be given up at the end of the comment, too. -/
theorem mem_unfinished_of_mem_unfinishedBefore {item : Unfinished}
    (member : item ∈ markup.unfinishedBefore line) : item ∈ markup.unfinished .commentEnd := by
  rw [unfinishedBefore] at member
  cases given : line.edge? with
  | none => simp [given] at member
  | some edge =>
    rw [given] at member
    simp only [Option.map_some, Option.getD_some, unfinished, List.mem_append,
      Option.mem_toList] at member ⊢
    refine member.imp_right fun element => ?_
    rw [unfinishedElement] at element
    split at element
    · simp at element
    · simpa [unfinishedElement] using element

theorem OpenedAs.openAt (openings : markup.OpenedAs opened) :
    (markup.openAt line).OpenedAs opened := by
  rw [OpenMarkup.openAt]
  cases line.edge? with
  | none => exact openings
  | some edge => exact openings.closed edge

/-! ### Reading lines -/

/-- Reading a line opens nothing but what the content of the line opens. -/
theorem OpenedAs.readContent (openings : markup.OpenedAs opened) (settings : Settings)
    (here : ∀ construct offset, line.OpensAt construct offset → opened construct offset) :
    (markup.readContent settings line).2.OpenedAs opened := by
  rw [OpenMarkup.readContent]
  split
  · next head parsed =>
    obtain ⟨front, parts, start, -⟩ := (TagHead.tiles_of_parse? parsed).isSpannedBy
    apply openings.readLine settings
    intro left right cut construct opens
    apply here
    refine ⟨front ++ left, right, ?_, ?_, opens⟩
    · rw [List.append_assoc, ← cut]
      exact parts
    · rw [start, width_append, Nat.add_assoc]
  · apply openings.readLine settings
    intro left right cut construct opens
    exact here construct _ ⟨left, right, cut, rfl, opens⟩

/-- Whatever is given up was open before, or a line opens it. -/
theorem OpenedAs.opened_of_mem_readLines (openings : markup.OpenedAs opened) (settings : Settings)
    {lines : List CommentLine}
    (here : ∀ line ∈ lines, ∀ construct offset, line.OpensAt construct offset →
      opened construct offset)
    {item : Unfinished} (member : item ∈ (markup.readLines settings lines).2) :
    opened item.construct item.range.start := by
  induction lines generalizing markup with
  | nil => exact (openings.unfinished .commentEnd member).1
  | cons line lines ih =>
    obtain ⟨first, later⟩ := List.forall_mem_cons.mp here
    rcases List.mem_append.mp member with before | behind
    · exact (openings.unfinished .commentEnd (mem_unfinished_of_mem_unfinishedBefore before)).1
    · exact ih (openings.openAt.readContent settings first) later behind

/-- Behind a line the reach is the end of the line. -/
theorem reach_readContent (settings : Settings) (markup : OpenMarkup) (line : CommentLine) :
    (markup.readContent settings line).2.reach = line.stop := by
  rw [readContent]
  split
  · next head parsed => exact (TagHead.tiles_of_parse? parsed).body_stop
  · rfl

/-- The markup that is open behind lines. -/
def behind (settings : Settings) (markup : OpenMarkup) (lines : List CommentLine) : OpenMarkup :=
  lines.foldl (fun markup line => ((markup.openAt line).readContent settings line).2) markup

/-- Lines can be read in two parts. What is given up in the first part is what would be given up if
the comment ended there, but for what is still open. -/
theorem readLines_append (settings : Settings) (markup : OpenMarkup) (front : List CommentLine) :
    ∃ given, (markup.readLines settings front).2 =
        given ++ (markup.behind settings front).unfinished .commentEnd ∧
      ∀ rest, markup.readLines settings (front ++ rest) =
        ((markup.readLines settings front).1 ++
            ((markup.behind settings front).readLines settings rest).1,
          given ++ ((markup.behind settings front).readLines settings rest).2) := by
  induction front generalizing markup with
  | nil => exact ⟨[], rfl, fun _ => rfl⟩
  | cons line front ih =>
    obtain ⟨given, final, read⟩ := ih ((markup.openAt line).readContent settings line).2
    refine ⟨markup.unfinishedBefore line ++ given, ?_, fun rest => ?_⟩
    · rw [readLines]
      dsimp only
      rw [final, ← List.append_assoc]
      rfl
    · rw [List.cons_append, readLines, readLines]
      dsimp only
      rw [read, List.append_assoc]
      rfl

/-- What is given up at an edge stands in the lines of the section that were read. -/
theorem standsIn_of_mem_unfinished {read : List CommentLine}
    (openings : markup.OpenedAs (OpenedIn read))
    (reach : ∀ last ∈ read.getLast?, markup.reach = last.stop) (edge : Edge) {item : Unfinished}
    (member : item ∈ markup.unfinished edge) (rest : List CommentLine) :
    item.StandsIn (read ++ rest) := by
  obtain ⟨opens, stop⟩ := openings.unfinished edge member
  rcases List.eq_nil_or_concat' read with rfl | ⟨earlier, last, rfl⟩
  · obtain ⟨line, nowhere, -⟩ := opens
    cases nowhere
  · refine ⟨earlier, last, rest, by simp, opens, ?_⟩
    rw [stop]
    exact reach last (by simp)

/-- Whatever is given up from here on stands in a section: in the one under way, of which the lines
`read` have been read, or in a later one. -/
theorem standsIn_of_mem_readLines (settings : Settings) {read lines : List CommentLine}
    (openings : markup.OpenedAs (OpenedIn read))
    (reach : ∀ last ∈ read.getLast?, markup.reach = last.stop) {item : Unfinished}
    (member : item ∈ (markup.readLines settings lines).2) :
    ∃ part ∈ (read ++ (Outline.ofLines CommentLine.tagHead? lines).description) ::
      (Outline.ofLines CommentLine.tagHead? lines).tags.map TagSection.lines,
      item.StandsIn part := by
  induction lines generalizing markup read with
  | nil => exact ⟨_, List.mem_cons_self, standsIn_of_mem_unfinished openings reach _ member _⟩
  | cons line lines ih =>
    have outline : Outline.ofLines CommentLine.tagHead? (line :: lines) =
        Outline.cons CommentLine.tagHead? line (Outline.ofLines CommentLine.tagHead? lines) := rfl
    rcases List.mem_append.mp member with before | later
    · rw [unfinishedBefore] at before
      cases given : line.edge? with
      | none => simp [given] at before
      | some edge =>
        exact ⟨_, List.mem_cons_self, standsIn_of_mem_unfinished openings reach edge
          (by simpa [given] using before) _⟩
    · have reached : ∀ (read : List CommentLine), ∀ last ∈ (read ++ [line]).getLast?,
          ((markup.openAt line).readContent settings line).2.reach = last.stop := by
        intro read last final
        rw [List.getLast?_concat, Option.mem_some_iff] at final
        rw [reach_readContent, final]
      cases headed : line.tagHead? with
      | some head =>
        -- A tag line closes everything, and a new section begins with it.
        have fresh : (markup.openAt line).OpenedAs (OpenedIn [line]) := by
          have edge : line.edge? = some .tagLine := by simp [CommentLine.edge?, headed]
          rw [openAt, edge]
          exact ⟨by simp [closed], by simp [closed], by simp [closed], by simp [closed]⟩
        have final : ((markup.openAt line).readContent settings line).2.OpenedAs
            (OpenedIn [line]) :=
          fresh.readContent settings fun construct offset opens =>
            ⟨line, List.mem_singleton_self line, opens⟩
        obtain ⟨part, present, stands⟩ := ih final (reached []) later
        refine ⟨part, List.mem_cons_of_mem _ ?_, stands⟩
        rw [outline, Outline.cons, headed]
        exact present
      | none =>
        have carried : (markup.openAt line).OpenedAs (OpenedIn (read ++ [line])) := by
          refine openings.openAt.mono ?_
          rintro construct offset ⟨other, member, opens⟩
          exact ⟨other, List.mem_append_left _ member, opens⟩
        have final : ((markup.openAt line).readContent settings line).2.OpenedAs
            (OpenedIn (read ++ [line])) :=
          carried.readContent settings fun construct offset opens => ⟨line, by simp, opens⟩
        obtain ⟨part, present, stands⟩ := ih final (reached read) later
        refine ⟨part, ?_, stands⟩
        rw [outline, Outline.cons, headed]
        rw [List.append_assoc] at present
        exact present

/-- Whatever is given up from a place on where nothing is open stands in one of the sections. -/
theorem standsIn_section_of_mem_readLines (settings : Settings) {reach : Nat}
    {lines : List CommentLine} {item : Unfinished}
    (member : item ∈ ((idle reach).readLines settings lines).2) :
    ∃ part ∈ (Outline.ofLines CommentLine.tagHead? lines).sections, item.StandsIn part.2 := by
  have fresh : (idle reach).OpenedAs (OpenedIn []) := openedAs_idle reach
  obtain ⟨lines, present, stands⟩ := standsIn_of_mem_readLines settings fresh (by simp) member
  rw [List.nil_append, ← Outline.map_snd_sections] at present
  obtain ⟨part, among, rfl⟩ := List.mem_map.mp present
  exact ⟨part, among, stands⟩

theorem standsIn_lines_of_mem_readLines (settings : Settings) {reach : Nat}
    {lines : List CommentLine} {item : Unfinished}
    (member : item ∈ ((idle reach).readLines settings lines).2) : item.StandsIn lines := by
  obtain ⟨part, present, stands⟩ := standsIn_section_of_mem_readLines settings member
  obtain ⟨before, after, parts⟩ := Outline.exists_append_of_mem_sections present
  rw [Outline.lines_ofLines] at parts
  rw [parts]
  exact stands.within before after

end OpenMarkup

end CommentProse
