import CommentProse.Proofs.BrokenReading
import CommentProse.Proofs.ReferenceExtents
import CommentProse.Proofs.Seams

/-! # Sections without markup

A line of prose alone adds its trimmed text to the passage under way
(`Wording.endLine_append_resting`). So where all lines of a section are prose in the end, whatever
literal signs and blanks are in them and wherever blank lines stand, the passages of the section,
joined with single spaces, say what the free text of its lines says; and where no blank line parts
what they say, they are one passage at most (`Analysis.plain_sections`).
-/

namespace CommentProse

/-! ### Wordings between lines -/

namespace Wording

/-- The wording at the start of a line, behind a text that ends visibly. -/
def resting (text : List Char) : Wording := ⟨text, !text.isEmpty⟩

/-- The text that a line of prose alone makes of the text before it. -/
def say (before text : List Char) : List Char :=
  if allBlank text then before
  else if before = [] then trim text
  else before ++ ' ' :: trim text

/-- A text as it is written in the end, if there is any. -/
def written (text : List Char) : List String :=
  if text = [] then [] else [String.ofList text]

variable {before : List Char}

theorem endLine_append_resting (before text : List Char) :
    ((resting before).append text).endLine = resting (say before text) := by
  have stays : (before.isEmpty || !before.isEmpty) = true := by simp
  rw [append, absorbsBlanks, resting, stays, Bool.true_or, if_pos rfl, say]
  by_cases blank : allBlank text = true
  · have nothing : text.dropWhile isBlank = [] := by
      rw [List.dropWhile_eq_nil_iff]
      exact List.all_eq_true.mp blank
    rw [if_pos blank, nothing, if_pos (by rfl), endLine, if_pos stays, resting]
  · have visible : allBlank (text.dropWhile isBlank) = false := by
      rw [← Bool.not_eq_true, ← trimEnd_eq_nil]
      exact mt trim_eq_nil.mp blank
    have nonempty : text.dropWhile isBlank ≠ [] := by
      intro empty
      rw [empty] at visible
      cases visible
    have trimmed : trim text ≠ [] := mt trim_eq_nil.mp blank
    rw [if_neg blank, if_neg (by simpa using nonempty), endLine, if_neg (by simp [nonempty]),
      trimEnd_append_of_visible _ visible]
    by_cases empty : before = []
    · rw [if_pos empty, joined, if_neg (by simp [empty]), empty, resting]
      simpa [trim, trimStart] using trimmed
    · rw [if_neg empty, joined, if_pos (by simpa using empty), resting]
      simp [trim, trimStart]

theorem endsVisibly_say (ends : EndsVisibly before) (text : List Char) :
    EndsVisibly (say before text) := by
  rw [say]
  split
  · exact ends
  · next visible =>
    have trimmed : trim text ≠ [] := mt trim_eq_nil.mp visible
    have here : EndsVisibly (trim text) := endsVisibly_trimEnd _
    split
    · exact here
    · rw [List.append_cons]
      exact here.append trimmed

theorem map_finish_resting (ends : EndsVisibly before) :
    (resting before).finish.map String.ofList = written before := by
  rw [finish, resting, ends.trimEnd_eq, written]
  cases before <;> rfl

/-- What a line says stands behind the text before it, with a space between them. -/
theorem intercalate_written_say (before text : List Char) (front behind : List String) :
    " ".intercalate (front ++ (written (say before text) ++ behind)) =
      " ".intercalate (front ++ (written before ++ ((said? text).toList ++ behind))) := by
  rw [say]
  by_cases blank : allBlank text = true
  · have silent : said? text = none := by simp [said?, trim_eq_nil, blank]
    rw [if_pos blank, silent]
    rfl
  · have trimmed : trim text ≠ [] := mt trim_eq_nil.mp blank
    rw [if_neg blank, said?_of_visible (Bool.not_eq_true _ ▸ blank)]
    by_cases empty : before = []
    · rw [if_pos empty, written, written, if_neg trimmed, if_pos empty]
      rfl
    · have joins : String.ofList (before ++ ' ' :: trim text) =
          String.ofList before ++ " " ++ String.ofList (trim text) := by
        rw [List.append_cons, String.ofList_append, String.ofList_append]
      rw [if_neg empty, written, written, if_neg (by simp), if_neg empty, joins]
      exact intercalate_append_cons_append front behind _ _

end Wording

/-! ### Lines of prose alone -/

namespace CommentLine

/-- What a line contributes to the prose if there is nothing but prose in it. -/
def plainWords (settings : Settings) (line : CommentLine) : List Word :=
  if line.isBlank then if settings.blankLinesDivide then [.division] else []
  else [.text line.free.text, .lineEnd]

/-- What a line says. -/
def said? (line : CommentLine) : Option String := CommentProse.said? line.free.text

/-- No blank line stands between two lines that say something. -/
def Unparted (lines : List CommentLine) : Prop :=
  ∀ front blank back, lines = front ++ blank :: back → blank.isBlank = true →
    (∀ line ∈ front, line.said? = none) ∨ ∀ line ∈ back, line.said? = none

theorem said?_of_isBlank {line : CommentLine} (blank : line.isBlank = true) :
    line.said? = none := by
  have silent : trim line.text = [] := trim_eq_nil.mpr blank
  rw [said?, free, tagHead?_of_isBlank blank]
  exact if_pos (List.isEmpty_iff.mpr silent)

end CommentLine

namespace Wording

variable {settings : Settings} {before : List Char} {lines : List CommentLine}

open CommentLine (plainWords Unparted)

/-- A line that says nothing leaves the text as it is. -/
theorem say_of_silent {line : CommentLine} (silent : line.said? = none) :
    say before line.free.text = before := by
  rw [say, if_pos]
  by_contra visible
  rw [CommentLine.said?, said?_of_visible (Bool.not_eq_true _ ▸ visible)] at silent
  cases silent

/-- The texts that lines of prose alone make up behind a text, one line after the other. -/
theorem texts_plainWords_cons (settings : Settings) (before : List Char) (line : CommentLine)
    (lines : List CommentLine) :
    (resting before).texts ((line :: lines).flatMap (plainWords settings)) =
      if line.isBlank = true ∧ settings.blankLinesDivide = true then
        (resting before).finish ++ (resting []).texts (lines.flatMap (plainWords settings))
      else (resting (say before line.free.text)).texts (lines.flatMap (plainWords settings)) := by
  rw [List.flatMap_cons, plainWords]
  by_cases blank : line.isBlank = true
  · by_cases divides : settings.blankLinesDivide = true
    · rw [if_pos blank, if_pos divides, if_pos ⟨blank, divides⟩, texts, List.singleton_append,
        run_cons, List.append_assoc]
      rfl
    · rw [if_pos blank, if_neg divides, if_neg fun both => divides both.2,
        say_of_silent (CommentLine.said?_of_isBlank blank)]
      rfl
  · rw [if_neg blank, if_neg fun both => blank both.1, ← endLine_append_resting]
    rfl

/-- The passages that lines of prose alone make up say, joined, what the lines say. -/
theorem intercalate_texts (settings : Settings) (ends : EndsVisibly before)
    (lines : List CommentLine) (front : List String) :
    " ".intercalate (front ++ ((resting before).texts
        (lines.flatMap (plainWords settings))).map String.ofList) =
      " ".intercalate (front ++ (written before ++ lines.filterMap CommentLine.said?)) := by
  induction lines generalizing before front with
  | nil =>
    rw [← map_finish_resting ends, List.filterMap_nil, List.append_nil]
    rfl
  | cons line lines ih =>
    rw [texts_plainWords_cons]
    split
    · next parts =>
      -- The passage before the blank line is at its end.
      have rest := ih endsVisibly_nil (front ++ written before)
      rw [List.map_append, map_finish_resting ends, ← List.append_assoc, rest,
        List.filterMap_cons_none (CommentLine.said?_of_isBlank parts.1), List.append_assoc]
      rfl
    · have here : (line :: lines).filterMap CommentLine.said? =
          line.said?.toList ++ lines.filterMap CommentLine.said? := by
        rw [List.filterMap_cons]
        cases line.said? <;> rfl
      rw [ih (endsVisibly_say ends _), intercalate_written_say, here]
      rfl

/-- Lines that say nothing make up no passage. -/
theorem texts_of_silent (settings : Settings) (silent : ∀ line ∈ lines, line.said? = none) :
    (resting []).texts (lines.flatMap (plainWords settings)) = [] := by
  induction lines with
  | nil => rfl
  | cons line lines ih =>
    obtain ⟨here, later⟩ := List.forall_mem_cons.mp silent
    rw [texts_plainWords_cons, say_of_silent here, ih later]
    split <;> rfl

theorem length_finish_le_one (wording : Wording) : wording.finish.length ≤ 1 := by
  rw [finish]
  split <;> simp

/-- Where no dividing line parts what the lines say from each other and from the text before them,
they make up one passage at most. -/
theorem length_texts_le_one (joins : settings.blankLinesDivide = true →
      ∀ front blank back, lines = front ++ blank :: back → blank.isBlank = true →
        (before = [] ∧ ∀ line ∈ front, line.said? = none) ∨ ∀ line ∈ back, line.said? = none) :
    ((resting before).texts (lines.flatMap (plainWords settings))).length ≤ 1 := by
  induction lines generalizing before with
  | nil => exact length_finish_le_one _
  | cons line lines ih =>
    rw [texts_plainWords_cons]
    split
    · next parts =>
      rcases joins parts.2 [] line lines rfl parts.1 with ⟨rfl, -⟩ | silent
      · refine ih fun divides front blank back cut isBlank => ?_
        rcases joins divides (line :: front) blank back (by rw [cut]; rfl) isBlank with
          ⟨-, silent⟩ | silent
        · exact .inl ⟨rfl, (List.forall_mem_cons.mp silent).2⟩
        · exact .inr silent
      · rw [texts_of_silent settings silent, List.append_nil]
        exact length_finish_le_one _
    · refine ih fun divides front blank back cut isBlank => ?_
      rcases joins divides (line :: front) blank back (by rw [cut]; rfl) isBlank with
        ⟨rfl, silent⟩ | silent
      · obtain ⟨here, later⟩ := List.forall_mem_cons.mp silent
        exact .inl ⟨say_of_silent here, later⟩
      · exact .inr silent

end Wording

/-! ### Lines that are prose in the end -/

namespace Unfinished

theorem relabel_append_spans (given : List Unfinished) (front back : List Span) :
    relabel given (front ++ back) = relabel given front ++ relabel given back := by
  induction given generalizing front back with
  | nil => rfl
  | cons item given ih =>
    have parts : Span.relabelAll item.range (front ++ back) =
        Span.relabelAll item.range front ++ Span.relabelAll item.range back := List.flatMap_append
    change relabel given (Span.relabelAll item.range (front ++ back)) = _
    rw [parts, ih]
    rfl

/-- Spans of which nothing becomes markup stay as they are. -/
theorem relabel_of_prose {given : List Unfinished} {spans : List Span}
    (prose : ∀ span ∈ relabel given spans, span.role = .prose) : relabel given spans = spans := by
  induction given generalizing spans with
  | nil => rfl
  | cons item given ih =>
    have rest : relabel given (Span.relabelAll item.range spans) =
        Span.relabelAll item.range spans := ih prose
    have kept (span : Span) (member : span ∈ spans) : Span.relabel item.range span = [span] := by
      have parts : ∀ part ∈ Span.relabel item.range span, part.role = .prose := fun part among =>
        prose part (rest ▸ List.mem_flatMap.mpr ⟨span, member, among⟩)
      rw [Span.relabel] at parts ⊢
      dsimp only at parts ⊢
      split
      · rfl
      · next cut =>
        rw [if_neg cut] at parts
        cases parts _ (List.mem_append_right _ List.mem_cons_self)
    change relabel given (Span.relabelAll item.range spans) = spans
    rw [rest, Span.relabelAll, List.flatMap_congr kept]
    exact List.flatMap_singleton' spans

end Unfinished

/-- Prose in which no neighbours are of equal kind is one span. -/
theorem Fragment.IsSpannedBy.eq_ofFragment {fragment : Fragment} {spans : List Span}
    (spanned : fragment.IsSpannedBy spans)
    (chain : spans.IsChain fun span next =>
      ¬(span.role = next.role ∧ span.divides = next.divides))
    (prose : ∀ span ∈ spans, span.role = .prose) : spans = Span.ofFragment .prose fragment := by
  have joins (span : Span) (member : span ∈ spans) : span.divides = false := by
    rw [← Bool.not_eq_true]
    intro divides
    cases (prose span member).symm.trans (spanned.role_of_divides member divides)
  have tiles := spanned.tiles
  match spans, tiles with
  | [], tiles =>
    have empty : fragment.text = [] := by
      rw [← width_eq_zero]
      have meets : fragment.start = fragment.start + width fragment.text := tiles
      omega
    rw [Span.ofFragment, Fragment.isEmpty, empty]
    rfl
  | [span], ⟨start, positive, stop⟩ =>
    have visible : fragment.isEmpty = false := by
      rw [Fragment.isEmpty, List.isEmpty_eq_false_iff]
      intro empty
      have stop : span.range.stop = fragment.start + width fragment.text := stop
      rw [empty, width_nil] at stop
      omega
    have role := prose span (List.mem_singleton_self span)
    have joins := joins span (List.mem_singleton_self span)
    obtain ⟨_, ⟨_, _⟩, _⟩ := span
    obtain rfl : _ = fragment.start := start
    obtain rfl : _ = fragment.stop := stop
    obtain rfl : _ = Role.prose := role
    obtain rfl : _ = false := joins
    rw [Span.ofFragment, visible]
    rfl
  | span :: next :: spans, _ =>
    obtain ⟨differs, -⟩ := List.isChain_cons_cons.mp chain
    refine absurd ⟨?_, ?_⟩ differs
    · rw [prose span (by simp), prose next (by simp)]
    · rw [joins span (by simp), joins next (by simp)]

/-- The head of a tag line does not divide prose. -/
theorem TagHead.divides_of_mem_spans {head : TagHead} {span : Span} (member : span ∈ head.spans) :
    span.divides = false := by
  have part {role : Role} (fragment : Fragment) (among : span ∈ Span.ofFragment role fragment) :
      span.divides = false := by
    rw [Span.ofFragment] at among
    split at among
    · cases among
    · rw [List.mem_singleton.mp among]
  simp only [spans, List.mem_append] at member
  rcases member with ((inMarker | inName) | inGap) | inArgument
  · exact part _ inMarker
  · exact part _ inName
  · exact part _ inGap
  · cases given : head.argument with
    | none => simp [given] at inArgument
    | some word => exact part word (by simpa [given] using inArgument)

namespace SpannedLine

/-- No span of the part of the line in which markup is read is anything but prose. -/
def IsUnmarked (line : SpannedLine) : Prop :=
  ∀ span ∈ line.spans, line.line.free.start ≤ span.range.start → span.role = .prose

instance (line : SpannedLine) : Decidable line.IsUnmarked :=
  inferInstanceAs (Decidable (∀ span ∈ line.spans, _ → _))

variable {line : SpannedLine} {given : List Unfinished} {markup : OpenMarkup} {settings : Settings}

/-- The prose of a line that has nothing but prose behind its head is one span. -/
theorem IsUnmarked.exists_spans (unmarked : line.IsUnmarked)
    (read : line.spans = Unfinished.relabel given (markup.readContent settings line.line).1) :
    ∃ head, line.spans = head ++ Span.ofFragment .prose line.line.free ∧
      ∀ span ∈ head, span.role ≠ .prose ∧ span.divides = false := by
  have spanned := OpenMarkup.isSpannedBy_readLine settings markup line.line.free
  have chain := OpenMarkup.isChain_readLine settings markup line.line.free
  rw [OpenMarkup.readContent_eq, Unfinished.relabel_append_spans] at read
  have prose : ∀ span ∈ Unfinished.relabel given (markup.readLine settings line.line.free).1,
      span.role = .prose := by
    intro span member
    obtain ⟨source, among, lower, -⟩ := Unfinished.mem_relabel member
    exact unmarked span (read ▸ List.mem_append_right _ member)
      ((spanned.tiles.pairwise.2 source among).1.trans lower)
  rw [Unfinished.relabel_of_prose prose] at read prose
  refine ⟨_, spanned.eq_ofFragment chain prose ▸ read, fun span member => ?_⟩
  obtain ⟨source, among, -, -, divides, kept⟩ := Unfinished.mem_relabel member
  cases headed : line.line.tagHead? with
  | none => simp [headed] at among
  | some head =>
    rw [headed] at among
    refine ⟨?_, divides.trans (TagHead.divides_of_mem_spans among)⟩
    rcases kept with markup | ⟨same, -⟩
    · simp [markup]
    · rw [same]
      exact ((TagHead.tiles_of_parse? headed).of_mem_spans among).2

/-- What is read in a line that is prose in the end comes to its free text. -/
theorem IsUnmarked.run_words (unmarked : line.IsUnmarked)
    (read : line.spans = Unfinished.relabel given (markup.readContent settings line.line).1)
    (wording : Wording) (words : List Word) :
    wording.run (line.reading.words settings ++ words) =
      wording.run (line.line.plainWords settings ++ words) := by
  obtain ⟨head, spans, headed⟩ := unmarked.exists_spans read
  obtain ⟨front, text, start⟩ := line.line.exists_text_eq_append_free
  have slice : (line.textOf ⟨.prose, line.line.free.range, false⟩).text = line.line.free.text := by
    have content : line.line.content =
        ⟨line.line.content.start, front ++ line.line.free.text ++ []⟩ := by
      rw [List.append_nil, ← text]
      rfl
    rw [textOf, content, Fragment.range, Fragment.stop, start, Fragment.slice_append]
  have pieces : line.reading.pieces.filterMap Piece.word? =
      (Piece.ofText .prose false line.line.free.text).filterMap Piece.word? := by
    have silent : head.filterMap (fun span => Piece.word?
        ⟨span.role, span.divides, (line.textOf span).text⟩) = [] := by
      rw [List.filterMap_eq_nil_iff]
      intro span member
      obtain ⟨role, joins⟩ := headed span member
      simp [Piece.word?, role, joins]
    rw [reading, spans, List.map_append, List.filterMap_append, List.filterMap_map]
    change head.filterMap (fun span => Piece.word?
        ⟨span.role, span.divides, (line.textOf span).text⟩) ++ _ = _
    rw [silent, List.nil_append, Span.ofFragment, Piece.ofText, Fragment.isEmpty]
    by_cases empty : line.line.free.text = []
    · simp [empty]
    · rw [if_neg (by simpa using empty), if_neg empty, List.map_singleton, slice]
  by_cases blank : line.line.isBlank = true
  · have same : line.reading.words settings = line.line.plainWords settings := by
      rw [LineReading.words, CommentLine.plainWords, if_pos blank,
        if_pos (show allBlank line.reading.text = true from blank)]
    rw [same]
  · have visible : allBlank line.reading.text = false := Bool.not_eq_true _ ▸ blank
    rw [LineReading.words_of_visible settings visible, pieces, CommentLine.plainWords,
      if_neg blank, List.append_assoc, LineReading.run_filterMap_ofText]
    rfl

end SpannedLine

/-! ### Sections -/

namespace Analysis

variable {settings : Settings} {block : Fragment} {analysis : Analysis}

/-- What has the label of a part is in that part, where labels are distinct. -/
theorem map_snd_filter_flatMap {α β γ : Type} [DecidableEq α] {parts : List (α × β)}
    (apart : (parts.map Prod.fst).Nodup) (items : β → List γ) {part : α × β}
    (member : part ∈ parts) :
    ((parts.flatMap fun part => (items part.2).map (part.1, ·)).filter
      (·.1 = part.1)).map Prod.snd = items part.2 := by
  have others (more : List (α × β)) (absent : part.1 ∉ more.map Prod.fst) :
      (more.flatMap fun part => (items part.2).map (part.1, ·)).filter (·.1 = part.1) = [] := by
    rw [List.filter_eq_nil_iff]
    intro item among
    obtain ⟨other, present, made⟩ := List.mem_flatMap.mp among
    obtain ⟨_, -, rfl⟩ := List.mem_map.mp made
    have differs : other.1 ≠ part.1 := fun same => absent (same ▸ List.mem_map_of_mem present)
    simpa using differs
  obtain ⟨front, back, rfl⟩ := List.append_of_mem member
  rw [List.map_append, List.map_cons, List.nodup_middle, List.nodup_cons, List.mem_append,
    not_or] at apart
  rw [List.flatMap_append, List.flatMap_cons, List.filter_append, List.filter_append,
    others front apart.1.1, others back apart.1.2, List.nil_append, List.append_nil,
    List.filter_eq_self.mpr (by simp), List.map_map]
  exact List.map_id _

/-- The texts of the passages that come from a section, in order. -/
def textsFrom (analysis : Analysis) (origin : Origin) : List (List Char) :=
  (analysis.passages.filter (·.origin = origin)).map Passage.text

theorem IsReadingOf.textsFrom_eq (reading : analysis.IsReadingOf settings block)
    {part : Origin × List SpannedLine} (present : part ∈ analysis.outline.sections) :
    analysis.textsFrom part.1 =
      Wording.empty.texts (part.2.flatMap fun line => line.reading.words settings) := by
  have names (head : TagHead) : head.unplaced.tagName = head.tagName := rfl
  have wordings := map_passagesOf settings block.start analysis.lines
  rw [← reading.passages, LineReading.wordings, SpannedLine.outline_map_reading,
    Outline.sections_map names, List.flatMap_map] at wordings
  have texts := map_snd_filter_flatMap (Outline.nodup_map_fst_sections analysis.outline)
    (fun lines : List SpannedLine => Wording.empty.texts
      ((lines.map SpannedLine.reading).flatMap (LineReading.words settings))) present
  calc analysis.textsFrom part.1
    _ = ((analysis.passages.map fun passage => (passage.origin, passage.text)).filter
          (·.1 = part.1)).map Prod.snd := by
        rw [List.filter_map, List.map_map]
        rfl
    _ = Wording.empty.texts
          ((part.2.map SpannedLine.reading).flatMap (LineReading.words settings)) := by
        rw [wordings]
        exact texts
    _ = _ := by rw [List.flatMap_map]

/-- Each line was read with some markup open, and what was given up was made markup then. -/
theorem exists_read_of_mem_lines (analysed : ofBlock settings block = .ok analysis)
    {line : SpannedLine} (member : line ∈ analysis.lines) :
    ∃ (given : List Unfinished) (markup : OpenMarkup),
      line.spans = Unfinished.relabel given (markup.readContent settings line.line).1 := by
  obtain ⟨comment, parsed, rfl⟩ := ofBlock_eq_ok_iff.mp analysed
  obtain ⟨⟨written, spans⟩, paired, rfl⟩ := List.mem_map.mp member
  obtain ⟨before, rfl⟩ := List.forall₂_iff_zip.mp
    (OpenMarkup.forall₂_readContent settings .none comment.lines) |>.2 paired
  exact ⟨_, before, rfl⟩

/-- Lines that are prose in the end make up the texts that their free texts make up. -/
theorem texts_of_unmarked (analysed : ofBlock settings block = .ok analysis)
    {lines : List SpannedLine} (among : lines ⊆ analysis.lines)
    (unmarked : ∀ line ∈ lines, line.IsUnmarked) (wording : Wording) :
    wording.texts (lines.flatMap fun line => line.reading.words settings) =
      wording.texts ((lines.map SpannedLine.line).flatMap (CommentLine.plainWords settings)) := by
  have runs : wording.run (lines.flatMap fun line => line.reading.words settings) =
      wording.run ((lines.map SpannedLine.line).flatMap (CommentLine.plainWords settings)) := by
    induction lines generalizing wording with
    | nil => rfl
    | cons line lines ih =>
      obtain ⟨here, others⟩ := List.cons_subset.mp among
      obtain ⟨plain, later⟩ := List.forall_mem_cons.mp unmarked
      obtain ⟨given, markup, read⟩ := exists_read_of_mem_lines analysed here
      rw [List.flatMap_cons, plain.run_words read, List.map_cons, List.flatMap_cons,
        Wording.run_append, Wording.run_append, ih others later]
  rw [Wording.texts, Wording.texts, runs]

/-- For every comment that can be analysed: the passages of a section of which all lines are prose in
the end, joined with single spaces, are the free texts of its lines, trimmed and joined with single
spaces, without those that say nothing; and they are one passage at most, unless a blank line that
divides prose parts what the lines say. For a tag this is its free text. -/
theorem plain_sections (settings : Settings) (block : Fragment) {analysis : Analysis}
    (analysed : ofBlock settings block = .ok analysis) :
    (∀ part ∈ analysis.outline.sections, (∀ line ∈ part.2, line.IsUnmarked) →
      " ".intercalate ((analysis.textsFrom part.1).map String.ofList) =
          freeText (part.2.map fun line => line.line.free.text) ∧
        (settings.blankLinesDivide = false ∨
            CommentLine.Unparted (part.2.map SpannedLine.line) →
          (analysis.textsFrom part.1).length ≤ 1)) ∧
      ∀ tag ∈ analysis.outline.tags, freeText (tag.lines.map fun line => line.line.free.text) =
        tag.bodyText (fun line => line.line.content) := by
  have reading := isReadingOf_of_ofBlock analysed
  refine ⟨fun part present unmarked => ?_, fun tag member => ?_⟩
  · have among : part.2 ⊆ analysis.lines := by
      obtain ⟨before, after, lines⟩ := exists_append_of_mem_sectionsOf present
      rw [lines]
      exact fun line within => List.mem_append_left _ (List.mem_append_right _ within)
    rw [reading.textsFrom_eq present, texts_of_unmarked analysed among unmarked]
    refine ⟨?_, fun joins => Wording.length_texts_le_one fun divides => ?_⟩
    · have texts := Wording.intercalate_texts settings endsVisibly_nil
        (part.2.map SpannedLine.line) []
      rw [List.filterMap_map] at texts
      rw [freeText, List.filterMap_map]
      exact texts
    · intro front blank back cut isBlank
      have unparted := joins.resolve_left (by simp [divides])
      exact (unparted front blank back cut isBlank).imp_left fun silent => ⟨rfl, silent⟩
  · obtain ⟨opening, following⟩ :=
      (Outline.head?_of_ofLines SpannedLine.tagHead? analysis.lines).2 tag member
    have first : tag.opening.line.free = tag.head.body := by
      rw [CommentLine.free, show tag.opening.line.tagHead? = some tag.head from opening]
      rfl
    have others (line : SpannedLine) (within : line ∈ tag.following) :
        line.line.free = line.line.content := by
      rw [CommentLine.free, show line.line.tagHead? = none from following line within]
      rfl
    rw [TagSection.bodyText_eq, TagSection.body, TagSection.lines, List.map_cons, List.map_cons,
      first, List.map_map]
    congr 2
    exact List.map_congr_left fun line within => congrArg Fragment.text (others line within)

/-- Literal signs, wide blanks and a blank line: two passages of the description, and one of the
tag. -/
theorem plain_sections_signs :
    let block : Fragment :=
      ⟨0, "/** a < b \x7b\n *\n * c\u00a0 \n *  \x7d d\n * @x \u2003e\n * f */".toList⟩
    ∃ analysis, ofBlock .standard block = .ok analysis ∧
      analysis.textsFrom .description = ["a < b \x7b".toList, "c \x7d d".toList] ∧
      " ".intercalate ((analysis.textsFrom .description).map String.ofList) =
        freeText ["a < b \x7b".toList, [], "c\u00a0 ".toList, " \x7d d".toList] ∧
      " ".intercalate ((analysis.textsFrom (.tag 0 "x")).map String.ofList) =
        freeText [" \u2003e".toList, "f ".toList] ∧
      (analysis.textsFrom (.tag 0 "x")).length ≤ 1 := by
  intro block
  let description : List SpannedLine :=
    [⟨⟨3, [' '], "a < b \x7b".toList, ['\n']⟩, [⟨.prose, ⟨4, 11⟩, false⟩]⟩,
      ⟨⟨12, " *".toList, [], ['\n']⟩, []⟩,
      ⟨⟨15, " * ".toList, "c\u00a0 ".toList, ['\n']⟩, [⟨.prose, ⟨18, 22⟩, false⟩]⟩,
      ⟨⟨23, " * ".toList, " \x7d d".toList, ['\n']⟩, [⟨.prose, ⟨26, 30⟩, false⟩]⟩]
  let tag : List SpannedLine :=
    [⟨⟨31, " * ".toList, "@x \u2003e".toList, ['\n']⟩,
        [⟨.markup, ⟨34, 35⟩, false⟩, ⟨.tagName, ⟨35, 36⟩, false⟩, ⟨.prose, ⟨36, 41⟩, false⟩]⟩,
      ⟨⟨42, " * ".toList, "f ".toList, []⟩, [⟨.prose, ⟨45, 47⟩, false⟩]⟩]
  have analysed : ofBlock .standard block = .ok
      { offset := 0
        comment := ⟨" a < b \x7b\n *\n * c\u00a0 \n *  \x7d d\n * @x \u2003e\n * f ".toList, []⟩
        lines := description ++ tag
        unfinished := []
        passages :=
          [⟨0, 0, .description, "a < b \x7b".toList, ⟨[⟨4, 7⟩]⟩⟩,
            ⟨0, 1, .description, "c \x7d d".toList, ⟨[⟨18, 2⟩, ⟨27, 3⟩]⟩⟩,
            ⟨0, 2, .tag 0 "x", "e f".toList, ⟨[⟨40, 2⟩, ⟨45, 1⟩]⟩⟩] } := by decide +kernel
  obtain ⟨sections, -⟩ := plain_sections .standard block analysed
  obtain ⟨joined, -⟩ := sections (.description, description) (by decide +kernel) (by decide +kernel)
  obtain ⟨tagged, single⟩ := sections (.tag 0 "x", tag) (by decide +kernel) (by decide +kernel)
  refine ⟨_, analysed, by decide +kernel, joined, tagged, single (.inr ?_)⟩
  intro front blank back cut isBlank
  have member : blank ∈ tag.map SpannedLine.line := by simp [cut]
  have visible : ∀ line ∈ tag.map SpannedLine.line, line.isBlank = false := by decide +kernel
  rw [visible blank member] at isBlank
  cases isBlank

end Analysis

end CommentProse
