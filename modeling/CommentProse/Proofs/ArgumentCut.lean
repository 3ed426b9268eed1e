import CommentProse.Proofs.BrokenLine
import CommentProse.Proofs.Isolation
import CommentProse.Proofs.Markup.Surroundings

/-! # What an argument cuts in two

The argument of a block tag is the first word behind its name, whatever markup begins in this word,
and the rest of the line is read as if nothing had come before. So markup that the argument opens is
not closed where it ends, and what it should hide is exposed as prose. All depends on the first
blank behind the argument (`Analysis.exposed_only_braces_iff`): if it is prose when the argument is
read, too, the two readings differ at most in braces that close references of the argument.
-/

namespace CommentProse

namespace TagHead

/-- What stands behind the name of a tag with an argument. -/
theorem Tiles.slice_name_stop {content argument : Fragment} {head : TagHead}
    (tiles : Tiles content head) (cut : head.argument = some argument) :
    content.slice ⟨head.name.stop, content.stop⟩ =
        ⟨head.gap.start, head.gap.text ++ argument.text ++ head.body.text⟩ ∧
      head.body.start = head.gap.start + width (head.gap.text ++ argument.text) := by
  obtain ⟨start, text⟩ := content
  have whole := tiles.text
  have name := tiles.name
  have gap := tiles.gap
  have body := tiles.body
  have first := tiles.argument argument cut
  simp only [cut, Option.map_some, Option.getD_some, Fragment.stop] at whole name gap body first
  have marker : head.marker.start = start := tiles.marker
  constructor
  · have sliced := Fragment.slice_append start (head.marker.text ++ head.name.text)
      (head.gap.text ++ argument.text ++ head.body.text) []
    have parts : head.marker.text ++ head.name.text ++
        (head.gap.text ++ argument.text ++ head.body.text) ++ [] = text := by
      simpa using whole
    rw [parts] at sliced
    have lower : start + width (head.marker.text ++ head.name.text) = head.gap.start := by
      simp only [width_append]
      omega
    have upper : head.gap.start + width (head.gap.text ++ argument.text ++ head.body.text) =
        start + width text := by
      have size := congrArg width parts
      simp only [width_append, width_nil] at size ⊢
      omega
    rw [lower, upper] at sliced
    rw [← sliced, Fragment.stop, Fragment.stop, ← gap]
  · simp only [width_append]
    omega

end TagHead

/-- No construct opens at a blank. -/
theorem Construct.Opens.not_isBlank {construct : Construct} {c : Char} {text : List Char}
    (opens : construct.Opens (c :: text)) : isBlank c = false := by
  cases construct with
  | tag label =>
    obtain ⟨behind, form, rest, same, -⟩ := opens
    cases same
    decide
  | reference name =>
    obtain ⟨behind, chars, rest, same, -⟩ := opens
    cases same
    decide
  | element name =>
    obtain ⟨behind, rest, same, -⟩ := opens
    cases same
    decide

namespace OpenMarkup

variable {settings : Settings} {markup : OpenMarkup} {content : Fragment} {c : Char}
  {back : List Char}

/-- A blank at the start of a line where nothing is open is prose. -/
theorem role_of_blank_first {reach : Nat} (text : content.text = c :: back)
    (blank : isBlank c = true) {span : Span}
    (member : span ∈ ((idle reach).readLine settings content).1)
    (covers : content.start ∈ span.range) : span.role = .prose := by
  obtain ⟨front, d, others, marks, lower, -⟩ := exists_mark_of_mem_readLine member covers
  have first : front = [] := by
    have nothing : width (front.map Prod.fst) = 0 := by omega
    exact List.map_eq_nil_iff.mp (width_eq_zero.mp nothing)
  have resumes : (idle reach).Resumes := ⟨rfl, by simp [idle]⟩
  rw [first, text, marks_read_of_stepText resumes
    (resumes.step_eq_stepText settings back _ (not_isMarkupChar_of_isBlank blank))] at marks
  exact (congrArg Prod.snd (List.cons.inj marks).1).symm

/-- Behind a line that begins with a blank, nothing is open that began with the line. -/
theorem openedAs_of_blank_first (settings : Settings) (reach : Nat)
    (text : content.text = c :: back) (blank : isBlank c = true) :
    ((idle reach).readLine settings content).2.OpenedAs fun _ offset => content.start < offset := by
  refine (openedAs_idle reach).readLine settings fun left right parts construct opens => ?_
  cases left with
  | nil =>
    rw [← show c :: back = right from text.symm.trans parts] at opens
    rw [opens.not_isBlank] at blank
    cases blank
  | cons d left =>
    have size := d.utf8Size_pos
    rw [width_cons]
    omega

/-- A text behind `front` that begins with a blank is read again as if nothing stood before it. If
the blank is prose in both readings, no more than a closing brace of a reference in `front` is
hidden by the first reading and prose in the second one. -/
theorem brace_of_hidden {start : Nat} {front : List Char} {later : Fragment}
    (meets : later.start = start + width front)
    (blank : ∀ c ∈ later.text.head?, isBlank c = true)
    (first : ∃ span ∈ (none.readLine settings ⟨start, front ++ later.text⟩).1,
      later.start ∈ span.range ∧ span.role = .prose) {offset : Nat}
    (hidden : ∃ span ∈ (none.readLine settings ⟨start, front ++ later.text⟩).1,
      offset ∈ span.range ∧ span.role ≠ .prose) {reach : Nat} {left right : List (Char × Role)}
    {c : Char}
    (marks : Piece.marks ((idle reach).read settings later.start later.text).1 =
      left ++ (c, .prose) :: right)
    (lower : later.start + width (left.map Prod.fst) ≤ offset)
    (upper : offset < later.start + width (left.map Prod.fst) + c.utf8Size) :
    c = '\x7d' ∧ '\x7b' ∈ front := by
  have spelled := text_eq_of_marks marks
  obtain ⟨b, rest, shape⟩ : ∃ b rest, later.text = b :: rest :=
    List.exists_cons_of_ne_nil (by simp [spelled])
  obtain ⟨source, present, here, role⟩ := first
  obtain ⟨span, among, covers, notProse⟩ := hidden
  have size := b.utf8Size_pos
  have atFirst := getElem?_marks_of_mem_readLine present here front (by rw [shape])
    (Nat.le_of_eq meets.symm) (by omega)
  have atOffset := getElem?_marks_of_mem_readLine among covers (front ++ left.map Prod.fst)
    (by rw [spelled, List.append_assoc]) (by rw [width_append]; omega)
    (by rw [width_append]; omega)
  rw [role, shape] at atFirst
  obtain ⟨before, behind, same, whole, agree⟩ := exists_forall₂_marks settings
    (not_isMarkupChar_of_isBlank (blank b (by simp [shape]))) atFirst reach
  rw [← meets, ← shape, marks] at agree
  rw [← shape] at whole
  -- The same character in both readings.
  rw [whole, ← same, List.length_append, List.length_map, List.length_map,
    List.getElem?_append_right (Nat.le_add_right _ _), Nat.add_sub_cancel_left] at atOffset
  have paired : (behind.zip (left ++ (c, .prose) :: right))[left.length]? =
      some ((c, span.role), (c, .prose)) := by
    rw [List.getElem?_zip_eq_some]
    exact ⟨atOffset, by simp⟩
  have agreed := (List.forall₂_iff_zip.mp agree).2 (List.mem_of_getElem? paired)
  exact agreed.2.resolve_left notProse

end OpenMarkup

theorem SpannedLine.ofLines_idle_cons (settings : Settings) (reach : Nat) {line : CommentLine}
    {head : TagHead} (headed : line.tagHead? = some head) (rest : List CommentLine) :
    ∃ behind, ofLines settings (.idle reach) (line :: rest) =
      ⟨line, Unfinished.relabel
        (((OpenMarkup.idle reach).readLine settings head.body).2.readLines settings rest).2
        (head.spans ++ ((OpenMarkup.idle reach).readLine settings head.body).1)⟩ :: behind := by
  rw [ofLines, OpenMarkup.readLines, OpenMarkup.openAt_idle, OpenMarkup.unfinishedBefore_idle,
    OpenMarkup.readContent, headed]
  exact ⟨_, rfl⟩

namespace SpannedLine

/-- The spans of what stands behind the name of a tag, read on its own up to the end of the line. -/
def spansBehindName (settings : Settings) (line : SpannedLine) (head : TagHead) : List Span :=
  (OpenMarkup.none.readLine settings (line.line.content.slice ⟨head.name.stop, line.line.stop⟩)).1

/-- The byte is prose of the line, but not where all that stands behind the name is read on its
own. -/
def Exposes (settings : Settings) (line : SpannedLine) (head : TagHead) (offset : Nat) : Prop :=
  (∃ span ∈ line.spansBehindName settings head, offset ∈ span.range ∧ span.role ≠ .prose) ∧
    ∃ span ∈ line.spans, offset ∈ span.range ∧ span.role = .prose

end SpannedLine

namespace Analysis

variable {settings : Settings} {block : Fragment} {analysis : Analysis} {line : SpannedLine}
  {head : TagHead}

/-- A tag line is read as if nothing stood before its body, and only what is given up behind it can
change its spans. -/
theorem exists_spans_eq_relabel (analysed : ofBlock settings block = .ok analysis)
    (member : line ∈ analysis.lines) (headed : line.tagHead? = some head) :
    ∃ reach rest, (∀ later ∈ rest, line.line.stop < later.start) ∧
      line.spans = Unfinished.relabel
        (((OpenMarkup.idle reach).readLine settings head.body).2.readLines settings rest).2
        (head.spans ++ ((OpenMarkup.idle reach).readLine settings head.body).1) := by
  obtain ⟨comment, parsed, rfl⟩ := ofBlock_eq_ok_iff.mp analysed
  obtain ⟨before, after, shape⟩ := List.append_of_mem member
  have lines := SpannedLine.lines_eq_of_ofLines shape
  have ordered := comment.pairwise_lines
  rw [lines] at ordered
  have isHead : line.line.tagHead?.isSome = true := by
    rw [show line.line.tagHead? = some head from headed]
    rfl
  have closes := OpenMarkup.openAt_of_tagHead?
    (OpenMarkup.none.behind settings (before.map SpannedLine.line)) isHead
  obtain ⟨front, earlier, sameFront, -, whole, -⟩ :=
    SpannedLine.exists_ofLines_append settings closes ordered
  obtain ⟨behind, first⟩ := SpannedLine.ofLines_idle_cons settings
    (OpenMarkup.none.behind settings (before.map SpannedLine.line)).reach headed
    (after.map SpannedLine.line)
  have split : SpannedLine.ofLines settings .none comment.lines = before ++ line :: after := shape
  rw [lines, whole, first] at split
  have lengths : front.length = before.length := by simpa using congrArg List.length sameFront
  have here := (List.cons.inj (List.append_inj split lengths).2).1
  refine ⟨_, _, fun later present => ?_, (congrArg SpannedLine.spans here).symm⟩
  exact List.rel_of_pairwise_cons (List.pairwise_append.mp ordered).2.1 present

/-- What a tag line has of prose is prose of its body, read as if nothing stood before. -/
theorem exists_mark_of_prose (analysed : ofBlock settings block = .ok analysis)
    (member : line ∈ analysis.lines) (headed : line.tagHead? = some head) {offset : Nat}
    (prose : ∃ span ∈ line.spans, offset ∈ span.range ∧ span.role = .prose) :
    ∃ reach front c back,
      Piece.marks ((OpenMarkup.idle reach).read settings head.body.start head.body.text).1 =
        front ++ (c, .prose) :: back ∧
      head.body.start + width (front.map Prod.fst) ≤ offset ∧
      offset < head.body.start + width (front.map Prod.fst) + c.utf8Size := by
  obtain ⟨reach, rest, -, spans⟩ := exists_spans_eq_relabel analysed member headed
  obtain ⟨span, among, covers, role⟩ := prose
  rw [spans] at among
  obtain ⟨source, present, lower, upper, -, kept⟩ := Unfinished.mem_relabel among
  have same := (kept.resolve_left (by simp [role])).1
  rw [role] at same
  rcases List.mem_append.mp present with inHead | inBody
  · have tiles : TagHead.Tiles line.line.content head := TagHead.tiles_of_parse? headed
    exact absurd same.symm (tiles.of_mem_spans inHead).2
  · have within : offset ∈ source.range :=
      ⟨lower.trans covers.1, Nat.lt_of_lt_of_le covers.2 upper⟩
    obtain ⟨front, c, back, marks, bounds⟩ := OpenMarkup.exists_mark_of_mem_readLine inBody within
    exact ⟨reach, front, c, back, same ▸ marks, bounds⟩

/-- The first byte behind an argument is prose. -/
theorem prose_behind_argument (analysed : ofBlock settings block = .ok analysis)
    (member : line ∈ analysis.lines) (headed : line.tagHead? = some head) {c : Char}
    {back : List Char} (body : head.body.text = c :: back) (blank : isBlank c = true) :
    ∃ span ∈ line.spans, head.body.start ∈ span.range ∧ span.role = .prose := by
  obtain ⟨reach, rest, later, spans⟩ := exists_spans_eq_relabel analysed member headed
  have tiles := (OpenMarkup.isSpannedBy_readLine settings (.idle reach) head.body).tiles
  have positive : head.body.start < head.body.stop := by
    rw [Fragment.stop, body, width_cons]
    have size := c.utf8Size_pos
    omega
  obtain ⟨source, among, covers⟩ := tiles.exists_mem (Nat.le_refl _) positive
  have outside : ∀ item ∈
      (((OpenMarkup.idle reach).readLine settings head.body).2.readLines settings rest).2,
      head.body.start ∉ item.range := by
    intro item given covered
    have openings := OpenMarkup.openedAs_of_blank_first settings reach body blank
    refine absurd covered.1 (Nat.not_le.mpr (openings.opened_of_mem_readLines settings ?_ given))
    intro below present construct offset opens
    have order := later below present
    have margin : below.start ≤ below.content.start := Nat.le_add_right _ _
    have first := opens.bounds.1
    have stop : head.body.stop = line.line.stop := (TagHead.tiles_of_parse? headed).body_stop
    omega
  obtain ⟨span, present, here, same⟩ :=
    Unfinished.exists_mem_relabel (List.mem_append_right head.spans among) covers outside
  exact ⟨span, spans ▸ present, here,
    same.trans (OpenMarkup.role_of_blank_first body blank among covers)⟩

theorem body_occursIn (analysed : ofBlock settings block = .ok analysis)
    (member : line ∈ analysis.lines) (headed : line.tagHead? = some head) :
    head.body.OccursIn block.text := by
  have occurs := (isReadingOf_of_ofBlock analysed).content_occursIn member
  exact (TagHead.tiles_of_parse? headed).body_occursIn occurs

/-- Read on its own, the text behind the name has a span for the first byte behind the argument. -/
theorem exists_span_behind_name (settings : Settings) (headed : line.tagHead? = some head)
    {argument : Fragment} (cut : head.argument = some argument) (more : head.body.text ≠ []) :
    ∃ span ∈ line.spansBehindName settings head, head.body.start ∈ span.range := by
  have tiles : TagHead.Tiles line.line.content head := TagHead.tiles_of_parse? headed
  obtain ⟨sliced, start⟩ := tiles.slice_name_stop cut
  have positive := Span.width_pos more
  rw [SpannedLine.spansBehindName, CommentLine.stop, sliced]
  refine (OpenMarkup.isSpannedBy_readLine settings .none _).tiles.exists_mem ?_ ?_
  · dsimp only
    omega
  · rw [Fragment.stop, width_append]
    dsimp only
    omega

/-- If the first blank behind the argument is prose anyway, no more than a closing brace of a
reference in the argument is exposed. -/
theorem brace_of_exposed (analysed : ofBlock settings block = .ok analysis)
    (member : line ∈ analysis.lines) (headed : line.tagHead? = some head) {argument : Fragment}
    (cut : head.argument = some argument)
    (first : ∃ span ∈ line.spansBehindName settings head,
      head.body.start ∈ span.range ∧ span.role = .prose) {offset : Nat}
    (exposed : line.Exposes settings head offset) :
    StandsAt block.text offset '\x7d' ∧ '\x7b' ∈ argument.text := by
  have tiles : TagHead.Tiles line.line.content head := TagHead.tiles_of_parse? headed
  obtain ⟨sliced, start⟩ := tiles.slice_name_stop cut
  obtain ⟨blanks, blank⟩ := TagHead.blanks_of_argument headed (by simp [cut])
  obtain ⟨hidden, prose⟩ := exposed
  obtain ⟨reach, left, d, right, marks, lower, upper⟩ :=
    exists_mark_of_prose analysed member headed prose
  rw [SpannedLine.spansBehindName, CommentLine.stop, sliced] at first hidden
  obtain ⟨rfl, braced⟩ := OpenMarkup.brace_of_hidden start blank first hidden marks lower upper
  have spelled := OpenMarkup.text_eq_of_marks marks
  constructor
  · obtain ⟨before, after, whole, size⟩ := body_occursIn analysed member headed
    refine ⟨before ++ left.map Prod.fst, right.map Prod.fst ++ after, by simp [whole, spelled], ?_⟩
    have brace : Char.utf8Size '\x7d' = 1 := rfl
    rw [width_append]
    omega
  · refine (List.mem_append.mp braced).resolve_left fun inGap => ?_
    exact absurd (blanks _ inGap) (by decide)

/-- On a tag line with an argument no byte is exposed but closing braces, and these only if there is
an opening brace in the argument, if and only if the line ends with the argument or the first blank
behind the argument is prose where all that stands behind the name is read on its own. If that blank
belongs to a tag, or to a reference whose body is left out, it is exposed itself. -/
theorem exposed_only_braces_iff (settings : Settings) (block : Fragment) {analysis : Analysis}
    (analysed : ofBlock settings block = .ok analysis) {line : SpannedLine}
    (member : line ∈ analysis.lines) {head : TagHead} (headed : line.tagHead? = some head)
    {argument : Fragment} (cut : head.argument = some argument) :
    (∀ offset, line.Exposes settings head offset →
        StandsAt block.text offset '\x7d' ∧ '\x7b' ∈ argument.text) ↔
      head.body.text = [] ∨ ∃ span ∈ line.spansBehindName settings head,
        head.body.start ∈ span.range ∧ span.role = .prose := by
  constructor
  · intro braces
    by_contra condition
    rw [not_or] at condition
    obtain ⟨c, back, body⟩ := List.exists_cons_of_ne_nil condition.1
    have blank := (TagHead.blanks_of_argument headed (by simp [cut])).2 c (by simp [body])
    have prose := prose_behind_argument analysed member headed body blank
    have exposed : line.Exposes settings head head.body.start := by
      refine ⟨?_, prose⟩
      obtain ⟨span, among, covers⟩ := exists_span_behind_name settings headed cut (by simp [body])
      exact ⟨span, among, covers, fun role => condition.2 ⟨span, among, covers, role⟩⟩
    obtain ⟨before, after, whole, start⟩ := body_occursIn analysed member headed
    have stands : StandsAt block.text head.body.start c :=
      ⟨before, back ++ after, by simp [whole, body], start⟩
    rw [stands.unique (braces _ exposed).1] at blank
    cases blank
  · rintro (empty | first) offset exposed
    · obtain ⟨reach, left, d, right, marks, -⟩ :=
        exists_mark_of_prose analysed member headed exposed.2
      simp [empty, OpenMarkup.read] at marks
    · exact brace_of_exposed analysed member headed cut first exposed

/-- A reference that begins in the argument: its body and the brace that closes it are prose. -/
theorem exposed_only_braces_iff_reference :
    ∃ analysis, ofBlock .standard ⟨0, "/** @param \x7b@code x\x7d */".toList⟩ = .ok analysis ∧
      analysis.passages.map Passage.text = ["x\x7d".toList] ∧
      ∃ line ∈ analysis.lines, ∃ head, line.tagHead? = some head ∧
        head.argument = some ⟨11, "\x7b@code".toList⟩ ∧
        ¬∀ offset, line.Exposes .standard head offset →
          StandsAt "/** @param \x7b@code x\x7d */".toList offset '\x7d' ∧
            '\x7b' ∈ "\x7b@code".toList := by
  have analysed : ofBlock .standard ⟨0, "/** @param \x7b@code x\x7d */".toList⟩ = .ok
      { offset := 0
        comment := ⟨" @param \x7b@code x\x7d ".toList, []⟩
        lines :=
          [⟨⟨3, [' '], "@param \x7b@code x\x7d ".toList, []⟩,
            [⟨.markup, ⟨4, 5⟩, false⟩, ⟨.tagName, ⟨5, 10⟩, false⟩, ⟨.markup, ⟨10, 11⟩, false⟩,
              ⟨.argument, ⟨11, 17⟩, false⟩, ⟨.prose, ⟨17, 21⟩, false⟩]⟩]
        unfinished := []
        passages := [⟨0, 0, .tag 0 "param", "x\x7d".toList, ⟨[⟨18, 2⟩]⟩⟩] } := by decide +kernel
  have headed : TagHead.parse? ⟨4, "@param \x7b@code x\x7d ".toList⟩ =
      some ⟨⟨4, ['@']⟩, ⟨5, "param".toList⟩, ⟨10, [' ']⟩, some ⟨11, "\x7b@code".toList⟩,
        ⟨17, " x\x7d ".toList⟩⟩ := by decide +kernel
  refine ⟨_, analysed, rfl, _, List.mem_singleton_self _, _, headed, rfl, fun braces => ?_⟩
  have condition := (exposed_only_braces_iff .standard _ analysed (List.mem_singleton_self _) headed
    rfl).mp braces
  exact absurd condition (by decide +kernel)

end Analysis

end CommentProse
