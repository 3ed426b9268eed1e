import CommentProse.Proofs.Markup.Elements
import CommentProse.Proofs.ReferenceExtents

/-! # Where elements end

In lines that are made of complete tags and of characters that open nothing, reading keeps nothing
open but an element, the one that matching the tags of the section by name and count leaves open
(`OpenMarkup.Follows.readLines_eq`). So the text in such an element is markup, all other text is
prose, and an element that is not left is given up once, where its section ends
(`SpannedLine.elements_match_by_name_and_count`).
-/

namespace CommentProse

/-! ### Sections of tags -/

/-- A line of which the free part is made of complete tags and of characters that open nothing. -/
structure ChunkedLine where
  line : CommentLine
  chunks : List Chunk
  made : Chunk.MakeUp line.free.text chunks

namespace ChunkedLine

def tags (line : ChunkedLine) : List HtmlTag := Chunk.tags line.line.free.start line.chunks

/-- Behind these parts of the free part a character of text stands at the offset. -/
def TextAt (line : ChunkedLine) (front : List Chunk) (offset : Nat) : Prop :=
  ∃ c back, line.chunks = front ++ .text c :: back ∧
    line.line.free.start + width (front.flatMap Chunk.chars) ≤ offset ∧
    offset < line.line.free.start + width (front.flatMap Chunk.chars) + c.utf8Size

theorem TextAt.mem_free_range {line : ChunkedLine} {front : List Chunk} {offset : Nat}
    (text : line.TextAt front offset) : offset ∈ line.line.free.range := by
  obtain ⟨c, back, parts, lower, upper⟩ := text
  have whole := line.made.flatMap_chars
  have stop : line.line.free.range.stop = line.line.free.start + width line.line.free.text := rfl
  rw [parts, List.flatMap_append, List.flatMap_cons, Chunk.chars, List.singleton_append] at whole
  refine ⟨(Nat.le_add_right _ _).trans lower, ?_⟩
  rw [stop, ← whole, width_append, width_cons]
  omega

/-- Of the tags before a line those that stand in its section. -/
def carried (before : List HtmlTag) (line : ChunkedLine) : List HtmlTag :=
  if line.line.tagHead?.isSome then [] else before

/-- The tags of the section under way, behind lines. -/
def sectionTags (before : List HtmlTag) (lines : List ChunkedLine) : List HtmlTag :=
  lines.foldl (fun before line => line.carried before ++ line.tags) before

end ChunkedLine

namespace VerbatimElement

/-- The role of text behind tags. -/
def roleBehind (settings : Settings) (tags : List HtmlTag) : Role :=
  if (behind settings tags).isSome then .markup else .prose

/-- The element that is not left where a section with these tags ends. -/
def unclosed (settings : Settings) (reach : Nat) (tags : List HtmlTag) : List Unfinished :=
  ((behind settings tags).map fun element =>
    ⟨.element element.name, ⟨element.entry.start, reach⟩⟩).toList

/-- The elements that are not left where sections end: before tag lines, and at the end. -/
def unclosedIn (settings : Settings) (reach : Nat) (before : List HtmlTag) :
    List ChunkedLine → List Unfinished
  | [] => unclosed settings reach before
  | line :: lines =>
    (if line.line.tagHead?.isSome then unclosed settings reach before else []) ++
      unclosedIn settings line.line.stop (line.carried before ++ line.tags) lines

end VerbatimElement

/-! ### Reading lines -/

namespace OpenMarkup

variable {settings : Settings} {tags : List HtmlTag} {markup : OpenMarkup}

theorem follows_idle (settings : Settings) (reach : Nat) : (idle reach).Follows settings [] :=
  ⟨rfl, rfl, rfl⟩

namespace Follows

theorem textRole_eq (follows : markup.Follows settings tags) :
    markup.textRole = VerbatimElement.roleBehind settings tags := by
  rw [textRole, follows.verbatim, Option.isSome_map, VerbatimElement.roleBehind]

theorem unfinished_eq (follows : markup.Follows settings tags) {edge : Edge}
    (givesUp : edge ≠ .blankLine) :
    markup.unfinished edge = VerbatimElement.unclosed settings markup.reach tags := by
  rw [unfinished, unfinishedTag, unfinishedReference, unfinishedElement, if_neg givesUp,
    follows.tag, follows.references, follows.verbatim, Option.map_map, VerbatimElement.unclosed]
  rfl

theorem unfinished_blankLine (follows : markup.Follows settings tags) :
    markup.unfinished .blankLine = [] := by
  rw [unfinished, unfinishedTag, unfinishedReference, unfinishedElement, follows.tag,
    follows.references]
  rfl

/-- Before a line, an element is given up if this is a tag line. -/
theorem before (follows : markup.Follows settings tags) (line : ChunkedLine) :
    markup.unfinishedBefore line.line =
        (if line.line.tagHead?.isSome then VerbatimElement.unclosed settings markup.reach tags
          else []) ∧
      (markup.openAt line.line).Follows settings (line.carried tags) := by
  rw [unfinishedBefore, openAt, CommentLine.edge?, ChunkedLine.carried]
  by_cases headed : line.line.tagHead?.isSome = true
  · rw [if_pos headed, if_pos headed, if_pos headed]
    exact ⟨follows.unfinished_eq (by decide), rfl, rfl, rfl⟩
  · rw [if_neg headed, if_neg headed, if_neg headed]
    split
    · exact ⟨follows.unfinished_blankLine, rfl, rfl, follows.verbatim⟩
    · exact ⟨rfl, follows⟩

theorem readContent (follows : markup.Follows settings tags) (line : ChunkedLine) :
    (markup.readContent settings line.line).2.Follows settings (tags ++ line.tags) := by
  have made : Chunk.MakeUp line.line.free.text (line.chunks ++ []) := by
    rw [List.append_nil]
    exact line.made
  obtain ⟨marks, rest, next, spelled, whole, nothing, goes, passes⟩ :=
    follows.exists_passes made line.line.free.start
  cases nothing
  have last := passes.last_eq
  rw [spelled, ← whole, read] at last
  rw [readContent_eq, readLine]
  dsimp only
  rw [last]
  exact ⟨goes.tag, goes.references, goes.verbatim⟩

/-- Whatever is given up in lines are the elements that are not left where sections end. -/
theorem readLines_eq (follows : markup.Follows settings tags) (lines : List ChunkedLine) :
    (markup.readLines settings (lines.map ChunkedLine.line)).2 =
      VerbatimElement.unclosedIn settings markup.reach tags lines := by
  induction lines generalizing markup tags with
  | nil => exact follows.unfinished_eq (by decide)
  | cons line lines ih =>
    obtain ⟨given, opens⟩ := follows.before line
    have behind := ih (opens.readContent line)
    rw [reach_readContent] at behind
    rw [List.map_cons, readLines, VerbatimElement.unclosedIn, ← given, ← behind]

theorem behind (follows : markup.Follows settings tags) (lines : List ChunkedLine) :
    (markup.behind settings (lines.map ChunkedLine.line)).Follows settings
      (ChunkedLine.sectionTags tags lines) := by
  induction lines generalizing markup tags with
  | nil => exact follows
  | cons line lines ih => exact ih ((follows.before line).2.readContent line)

/-- Text in a line has the role of text behind the tags before it in the section; and if no element
is open there, all that is open behind the line was opened further on. -/
theorem roleAt_readContent (follows : markup.Follows settings tags) {line : ChunkedLine}
    {front : List Chunk} {offset : Nat} (text : line.TextAt front offset) :
    Span.RoleAt (markup.readContent settings line.line).1 offset
        (VerbatimElement.roleBehind settings
          (tags ++ Chunk.tags line.line.free.start front)) ∧
      (VerbatimElement.behind settings (tags ++ Chunk.tags line.line.free.start front) = .none →
        (markup.readContent settings line.line).2.OpenedAs fun _ start => offset < start) := by
  obtain ⟨c, back, parts, lower, upper⟩ := text
  obtain ⟨marks, rest, next, spelled, whole, others, goes, passes⟩ :=
    follows.exists_passes (parts ▸ line.made) line.line.free.start
  cases others with
  | @text c text chunks noBrace noTag later =>
    have here : Passes settings markup line.line.free.start
        (marks ++ [(c, next.textRole)]) text next := passes.trans (goes.passes_text noBrace noTag)
    have text_eq : line.line.free.text = (marks ++ [(c, next.textRole)]).map Prod.fst ++ text := by
      rw [List.map_append, spelled, whole]
      simp
    have marks_eq := here.marks_eq
    have last_eq := here.last_eq
    rw [← text_eq] at marks_eq last_eq
    rw [List.append_assoc, goes.textRole_eq] at marks_eq
    rw [List.map_append, spelled] at last_eq
    rw [readContent_eq]
    constructor
    · rw [← spelled] at lower upper
      obtain ⟨span, among, covers⟩ := roleAt_readLine_iff.mpr
        ⟨marks, c, _, marks_eq, lower, upper⟩
      exact ⟨span, List.mem_append_right _ among, covers⟩
    · intro outside
      have none_open : next.verbatim = .none := by rw [goes.verbatim, outside, Option.map_none]
      have nothing : next.OpenedAs fun _ start => offset < start := by
        refine ⟨?_, ?_, ?_, ?_⟩ <;> simp [goes.tag, goes.references, none_open]
      rw [readLine]
      dsimp only
      rw [last_eq]
      have final : (next.read settings (line.line.free.start + width (front.flatMap Chunk.chars ++
          [c])) text).2.OpenedAs fun _ start => offset < start := by
        refine nothing.read settings fun left right _ _ _ => ?_
        rw [width_append, width_cons, width_nil]
        omega
      exact ⟨final.tag, final.tagElement, final.references, final.verbatim⟩

end Follows

end OpenMarkup

/-! ### Spans in the end -/

theorem Span.relabel_of_markup {range : ByteRange} {span : Span} (markup : span.role = .markup) :
    relabel range span = [span] := by
  rw [relabel]
  dsimp only
  rw [if_pos (.inr markup)]

/-- Markup stays markup. -/
theorem Unfinished.roleAt_relabel_markup {items : List Unfinished} {spans : List Span}
    {offset : Nat} (role : Span.RoleAt spans offset .markup) :
    Span.RoleAt (relabel items spans) offset .markup := by
  induction items generalizing spans with
  | nil => exact role
  | cons item items ih =>
    obtain ⟨span, member, inside, markup⟩ := role
    refine ih ⟨span, List.mem_flatMap.mpr ⟨span, member, ?_⟩, inside, markup⟩
    rw [Span.relabel_of_markup markup]
    exact List.mem_singleton_self span

namespace SpannedLine

open VerbatimElement (behind roleBehind unclosedIn IsUnclosed)

variable {settings : Settings} {front after : List ChunkedLine} {line : ChunkedLine}

/-- No markup that is given up covers text of a line that stands outside of all elements. -/
theorem not_mem_of_outside (settings : Settings)
    (ordered : ((front ++ line :: after).map ChunkedLine.line).Pairwise
      fun line later => line.stop < later.start) (offset : Nat)
    (inside : offset ∈ line.line.free.range)
    (behindLine : (((OpenMarkup.none.behind settings (front.map ChunkedLine.line)).openAt
      line.line).readContent settings line.line).2.OpenedAs fun _ start => offset < start) :
    ∀ item ∈ (OpenMarkup.none.readLines settings
      ((front ++ line :: after).map ChunkedLine.line)).2, offset ∉ item.range := by
  obtain ⟨given, final, read⟩ :=
    OpenMarkup.readLines_append settings .none (front.map ChunkedLine.line)
  rw [List.map_append, List.map_cons] at ordered ⊢
  obtain ⟨-, rest, across⟩ := List.pairwise_append.mp ordered
  -- What is given up before the line stands in the lines before.
  have earlier (item : Unfinished) (member : item ∈ (OpenMarkup.none.readLines settings
      (front.map ChunkedLine.line)).2) : offset ∉ item.range := by
    have stands : item.StandsIn (front.map ChunkedLine.line) :=
      OpenMarkup.standsIn_lines_of_mem_readLines settings member
    obtain ⟨last, among, stop⟩ := stands.exists_last
    have order := across last among line.line List.mem_cons_self
    have start := line.line.start_le_free_start
    intro covered
    have lower := inside.1
    have upper := covered.2
    dsimp only [Fragment.range] at lower
    omega
  -- What is given up behind it was opened behind the offset.
  have later (item : Unfinished) (member : item ∈ ((((OpenMarkup.none.behind settings
      (front.map ChunkedLine.line)).openAt line.line).readContent settings
      line.line).2.readLines settings (after.map ChunkedLine.line)).2) :
      offset ∉ item.range := by
    have opened : offset < item.range.start := by
      refine behindLine.opened_of_mem_readLines settings ?_ member
      intro other among construct start opens
      have order := (List.pairwise_cons.mp rest).1 other among
      have lower := opens.bounds.1
      have margin : other.start ≤ other.content.start := Nat.le_add_right _ _
      have upper : offset < line.line.stop := line.line.free_stop ▸ inside.2
      omega
    exact fun covered => Nat.not_lt.mpr covered.1 opened
  rw [read, OpenMarkup.readLines]
  intro item member
  rcases List.mem_append.mp member with before | here
  · exact earlier item (final ▸ List.mem_append_left _ before)
  · rcases List.mem_append.mp here with atLine | behind
    · exact earlier item (final ▸ List.mem_append_right _
        (OpenMarkup.mem_unfinished_of_mem_unfinishedBefore atLine))
    · exact later item behind

/-- Text in a line has in the end the role of text behind the tags before it in the section. -/
theorem exists_roleAt (settings : Settings)
    (ordered : ((front ++ line :: after).map ChunkedLine.line).Pairwise
      fun line later => line.stop < later.start) :
    ∃ spanned, (ofLines settings .none
        ((front ++ line :: after).map ChunkedLine.line))[front.length]? = some spanned ∧
      spanned.line = line.line ∧
      ∀ parts offset, line.TextAt parts offset →
        Span.RoleAt spanned.spans offset (roleBehind settings
          (line.carried (ChunkedLine.sectionTags [] front) ++
            Chunk.tags line.line.free.start parts)) := by
  have follows := (OpenMarkup.follows_idle settings 0).behind front
  obtain ⟨-, opens⟩ := follows.before line
  obtain ⟨given, -, read⟩ :=
    OpenMarkup.readLines_append settings .none (front.map ChunkedLine.line)
  have outside := not_mem_of_outside settings ordered
  generalize items_eq : (OpenMarkup.none.readLines settings
    ((front ++ line :: after).map ChunkedLine.line)).2 = items at outside
  refine ⟨⟨line.line, Unfinished.relabel items (((OpenMarkup.none.behind settings
    (front.map ChunkedLine.line)).openAt line.line).readContent settings line.line).1⟩, ?_, rfl,
    ?_⟩
  · have lengths := (OpenMarkup.forall₂_readLines settings .none
      (front.map ChunkedLine.line)).length_eq
    rw [List.length_map] at lengths
    rw [ofLines, items_eq, List.getElem?_map, List.map_append, List.map_cons, read,
      OpenMarkup.readLines]
    dsimp only
    rw [List.zip_append (by rw [List.length_map, lengths]), List.zip_cons_cons,
      List.getElem?_append_right (by simp [lengths])]
    simp [lengths]
  · intro parts offset text
    obtain ⟨role, opened⟩ := opens.roleAt_readContent text
    dsimp only
    rw [roleBehind] at role ⊢
    cases open_ : VerbatimElement.behind settings (line.carried
        (ChunkedLine.sectionTags [] front) ++ Chunk.tags line.line.free.start parts) with
    | some element =>
      rw [open_] at role
      exact Unfinished.roleAt_relabel_markup role
    | none =>
      rw [open_] at role
      exact Unfinished.roleAt_relabel_prose_iff.mpr
        ⟨role, outside offset text.mem_free_range (opened open_)⟩

/-- In lines that are made of complete tags and of characters that open nothing, an element is
entered by the first tag that opens a verbatim element and left by the first later tag that closes
one of the same name and balances all tags of that name since. Text in it is markup and all other
text is prose, and an element that is not left is given up once, where its section ends. -/
theorem elements_match_by_name_and_count (settings : Settings) (lines : List ChunkedLine) :
    (∀ tags element, behind settings tags = some element ↔
      ∃ before, tags = before ++ element.tags ∧ behind settings before = none ∧
        element.entry.opens element.name = true ∧
        settings.isVerbatimElement element.name = true ∧ element.IsUnclosed) ∧
    (OpenMarkup.none.readLines settings (lines.map ChunkedLine.line)).2 =
      unclosedIn settings 0 [] lines ∧
    ((lines.map ChunkedLine.line).Pairwise (fun line later => line.stop < later.start) →
      ∀ (index : Nat) (line : ChunkedLine), lines[index]? = some line →
        ∃ spanned, (ofLines settings .none (lines.map ChunkedLine.line))[index]? = some spanned ∧
          spanned.line = line.line ∧
          ∀ front offset, line.TextAt front offset →
            Span.RoleAt spanned.spans offset (roleBehind settings
              (line.carried (ChunkedLine.sectionTags [] (lines.take index)) ++
                Chunk.tags line.line.free.start front))) := by
  refine ⟨fun tags element => VerbatimElement.behind_eq_some_iff,
    (OpenMarkup.follows_idle settings 0).readLines_eq lines, fun ordered index line at_ => ?_⟩
  obtain ⟨inside, rfl⟩ := List.getElem?_eq_some_iff.mp at_
  have cut : lines.take index ++ lines[index] :: lines.drop (index + 1) = lines := by
    rw [List.getElem_cons_drop, List.take_append_drop]
  have length : (lines.take index).length = index := List.length_take_of_le inside.le
  rw [← cut] at ordered
  have found := exists_roleAt settings ordered
  rwa [cut, length] at found

/-- An element in another one of its name with a tag of another name and a quoted `>`, behind a
blank line one without content, and one that is given up before a tag line. -/
theorem elements_match_by_name_and_count_nested :
    let lines : List CommentLine :=
      [⟨3, [' '], "a<PRE>b<i t='>'>c<pre>".toList, ['\n']⟩, ⟨27, " *".toList, [], ['\n']⟩,
        ⟨30, " * ".toList, "</pre>d</Pre>e<pre/>f<code>".toList, ['\n']⟩,
        ⟨61, " * ".toList, "@x g".toList, []⟩]
    lines.Pairwise (fun line later => line.stop < later.start) ∧
      (OpenMarkup.none.readLines .standard lines).2 = [⟨.element "code", ⟨54, 60⟩⟩] ∧
      ∃ spanned, (ofLines .standard .none lines)[2]? = some spanned ∧
        Span.RoleAt spanned.spans 39 .markup ∧ Span.RoleAt spanned.spans 46 .prose ∧
        Span.RoleAt spanned.spans 53 .prose := by
  intro lines
  have ordered : lines.Pairwise (fun line later => line.stop < later.start) := by decide +kernel
  let opening (name : String) (front back : List Char) : Chunk :=
    .tag (.element name false) ('<' :: front) back
  let closing (name : String) (front : List Char) : Chunk :=
    .tag (.element name true) ('<' :: '/' :: front) ['>']
  let first : ChunkedLine :=
    ⟨lines[0], [.text 'a', opening "pre" "PRE".toList ['>'], .text 'b',
      opening "i" ['i'] " t='>'>".toList, .text 'c', opening "pre" "pre".toList ['>']],
      by decide +kernel⟩
  let third : ChunkedLine :=
    ⟨lines[2], [closing "pre" "pre".toList, .text 'd', closing "pre" "Pre".toList, .text 'e',
      opening "pre" "pre".toList "/>".toList, .text 'f', opening "code" "code".toList ['>']],
      by decide +kernel⟩
  let chunked : List ChunkedLine :=
    [first, ⟨lines[1], [], by decide +kernel⟩, third,
      ⟨lines[3], [.text ' ', .text 'g'], by decide +kernel⟩]
  obtain ⟨-, given, roles⟩ := elements_match_by_name_and_count .standard chunked
  obtain ⟨spanned, found, -, role⟩ := roles ordered 2 third rfl
  have textAt (count : Nat) {offset : Nat} {expected : Role}
      (text : third.TextAt (third.chunks.take count) offset)
      (behind : roleBehind .standard (first.tags ++
        Chunk.tags third.line.free.start (third.chunks.take count)) = expected) :
      Span.RoleAt spanned.spans offset expected :=
    behind ▸ role _ offset text
  refine ⟨ordered, given.trans (by decide +kernel), spanned, found, ?_, ?_, ?_⟩
  · exact textAt 1 ⟨'d', third.chunks.drop 2, rfl, by decide +kernel⟩ (by decide +kernel)
  · exact textAt 3 ⟨'e', third.chunks.drop 4, rfl, by decide +kernel⟩ (by decide +kernel)
  · exact textAt 5 ⟨'f', third.chunks.drop 6, rfl, by decide +kernel⟩ (by decide +kernel)

end SpannedLine

end CommentProse
