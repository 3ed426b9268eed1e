import CommentProse.Proofs.BrokenLine
import CommentProse.Proofs.Contents
import CommentProse.Proofs.Prose.Spacing

/-! # What a broken line says

A line that is broken at a space in its prose says the same as the two lines that it is broken into,
wherever they stand: the words of the two lines take every wording that may be there at the start of
a line to the one that the words of the line take it to (`LineReading.Broken.run_words`), and the
free text of a tag is the same. So an outline with the line and one with the two lines say the same
(`LineReading.Broken.outline`).
-/

namespace CommentProse

/-! ### Spans and pieces -/

theorem Span.exists_of_place_eq_append {start : Nat} {pieces : List Piece}
    {before behind : List Span} (placed : place start pieces = before ++ behind) :
    ∃ front back, pieces = front ++ back ∧ before = place start front ∧
      behind = place (start + width (front.flatMap Piece.text)) back := by
  induction before generalizing start pieces with
  | nil => exact ⟨[], pieces, rfl, rfl, placed.symm⟩
  | cons span before ih =>
    cases pieces with
    | nil => simp [place] at placed
    | cons piece pieces =>
      obtain ⟨rfl, rest⟩ := List.cons.inj placed
      obtain ⟨front, back, rfl, rfl, rfl⟩ := ih rest
      exact ⟨piece :: front, back, rfl, rfl, by simp [Nat.add_assoc]⟩

/-- Pieces that make up a text with a space are broken there if the spans that they are laid out in
are. -/
theorem Span.Broken.exists_pieces {start : Nat} {pieces : List Piece} {text after : List Char}
    {first second : List Span}
    (broken : Broken (start + width text) (place start pieces) first second)
    (whole : pieces.flatMap Piece.text = text ++ ' ' :: after) :
    ∃ front back, Piece.Broken .prose false pieces front back ∧
      first = place start front ∧ front.flatMap Piece.text = text ∧
      second = place (start + width text + 1) back ∧ back.flatMap Piece.text = after := by
  obtain ⟨before, lower, upper, behind, atLeast, below, cut, rfl, rfl⟩ := broken
  obtain ⟨front, others, rfl, rfl, rest⟩ := exists_of_place_eq_append cut
  cases others with
  | nil => simp [place] at rest
  | cons piece back =>
    obtain ⟨role, divides, chars⟩ := piece
    obtain ⟨here, rfl⟩ := List.cons.inj rest
    cases here
    rw [List.flatMap_append, List.flatMap_cons] at whole
    -- The byte that the spans are broken at is that of the space, so this stands in the piece.
    obtain ⟨left, rfl, others⟩ := exists_between whole (by omega)
    rw [width_append] at below ⊢
    obtain ⟨more, rfl, behindSpace⟩ := exists_between others.symm (by omega)
    cases more with
    | nil =>
      rw [List.append_nil] at below
      dsimp only at below
      omega
    | cons c right =>
      obtain ⟨rfl, rfl⟩ := List.cons.inj behindSpace
      refine ⟨_, _, ⟨front, left, right, back, rfl, rfl, rfl⟩, ?_, ?_, ?_, ?_⟩
      · rw [place_append, place_ofText, Nat.add_assoc]
      · rw [List.flatMap_append, Piece.flatMap_text_ofText]
      · have stop : start + (width (front.flatMap Piece.text) + width left) + 1 + width right =
            start + width (front.flatMap Piece.text) + width (left ++ ' ' :: right) := by
          rw [width_append, width_cons, show Char.utf8Size ' ' = 1 from rfl]
          omega
        rw [place_append, place_ofText, Piece.flatMap_text_ofText, stop]
      · rw [List.flatMap_append, Piece.flatMap_text_ofText]
        rfl

namespace SpannedLine

/-- The pieces of a line whose spans are pieces laid out from its start. -/
theorem pieces_reading {line : SpannedLine} {pieces : List Piece}
    (placed : line.spans = Span.place line.line.content.start pieces)
    (parts : pieces.flatMap Piece.text = line.line.text) : line.reading.pieces = pieces := by
  rw [reading, placed]
  exact Fragment.map_slice_place line.line.content parts

/-- A line with broken spans has broken pieces. -/
theorem pieces_broken {line : SpannedLine} {text after : List Char} {first second : List Span}
    (spanned : line.line.content.IsSpannedBy line.spans)
    (parts : line.line.text = text ++ ' ' :: after)
    (broken : Span.Broken (line.line.content.start + width text) line.spans first second) :
    Piece.Broken .prose false line.reading.pieces
      (reading ⟨line.line.front text, first⟩).pieces
      (reading ⟨line.line.back text after, second⟩).pieces := by
  obtain ⟨pieces, makeUp, placed⟩ := spanned
  rw [placed] at broken
  obtain ⟨front, back, brokenPieces, rfl, frontParts, rfl, backParts⟩ :=
    broken.exists_pieces (makeUp.text_eq.trans parts)
  rw [pieces_reading placed makeUp.text_eq, pieces_reading _ frontParts,
    pieces_reading _ backParts]
  · exact brokenPieces
  · rfl
  · rfl

end SpannedLine

/-! ### Words -/

theorem TagHead.Cut.unplaced {after : List Char} {whole part : Option TagHead}
    (cut : Cut after whole part) :
    Cut after (whole.map TagHead.unplaced) (part.map TagHead.unplaced) := by
  cases cut with
  | none => exact .none
  | some head body rest => exact .some head.unplaced body rest

/-- What is read in a single-spaced line, and in the two lines that it is broken into. -/
structure LineReading.Broken (whole first second : LineReading) : Prop where
  text : whole.text = first.text ++ ' ' :: second.text
  pieces : Piece.Broken .prose false whole.pieces first.pieces second.pieces
  spelled : whole.pieces.flatMap Piece.text = whole.text
  single : SingleSpaced whole.text
  visible : allBlank first.text = false
  visibleAfter : allBlank second.text = false
  heads : TagHead.Cut second.text whole.head? first.head?
  headless : second.head? = none

namespace LineReading

theorem word?_eq_text {piece : Piece} {chars : List Char}
    (word : piece.word? = some (.text chars)) : chars = piece.text := by
  rw [Piece.word?] at word
  split at word
  · simp at word
  · split at word
    · simpa using word.symm
    · simp at word

theorem word?_ne_lineEnd (piece : Piece) : piece.word? ≠ some .lineEnd := by
  rw [Piece.word?]
  repeat' split
  all_goals simp

theorem words_of_visible (settings : Settings) {reading : LineReading}
    (visible : allBlank reading.text = false) :
    reading.words settings = reading.pieces.filterMap Piece.word? ++ [.lineEnd] := by
  rw [words, visible, if_neg (by decide)]

/-- Every line leaves the wording as it may be at the start of the next. -/
theorem rested_run_words (settings : Settings) (reading : LineReading) {wording : Wording}
    (rested : wording.Rested) : (wording.run (reading.words settings)).2.Rested := by
  rw [words]
  split
  · split
    · exact Wording.rested_empty
    · exact rested
  · exact rested.run_lineEnd _

/-- Prose appended in the place of a piece is the same if the piece is left out for being empty. -/
theorem run_filterMap_ofText (wording : Wording) (text : List Char) (words : List Word) :
    wording.run ((Piece.ofText .prose false text).filterMap Piece.word? ++ words) =
      wording.run (.text text :: words) := by
  rw [Piece.ofText]
  split
  · next empty => simp [empty, Wording.step, Wording.append_nil]
  · simp [Piece.word?]

namespace Broken

variable {whole first second : LineReading}

/-- At the start of a line, the words of a broken line come to the same as those of the line. -/
theorem run_words (broken : Broken whole first second) (settings : Settings) {wording : Wording}
    (rested : wording.Rested) :
    wording.run (whole.words settings) =
      wording.run (first.words settings ++ second.words settings) := by
  obtain ⟨front, left, right, back, wholeParts, firstParts, secondParts⟩ := broken.pieces
  have visible : allBlank whole.text = false := by
    have first := broken.visible
    rw [allBlank] at first ⊢
    rw [broken.text, List.all_append, first, Bool.false_and]
  have single (before text after : List Char)
      (parts : whole.pieces.flatMap Piece.text = before ++ text ++ after) : SingleSpaced text := by
    have spaces := broken.single
    rw [← broken.spelled, parts] at spaces
    exact spaces.part _ _ _
  have spaced : (wording.run (front.filterMap Piece.word?)).2.Spaced := by
    apply rested.spaced.run
    · intro chars member
      obtain ⟨piece, among, word⟩ := List.mem_filterMap.mp member
      obtain ⟨before, after, rfl⟩ := List.append_of_mem among
      rw [word?_eq_text word]
      exact single (before.flatMap Piece.text) _
        (after.flatMap Piece.text ++ (left ++ ' ' :: right) ++ back.flatMap Piece.text)
        (by rw [wholeParts]; simp)
    · intro member
      obtain ⟨piece, -, word⟩ := List.mem_filterMap.mp member
      exact word?_ne_lineEnd piece word
  have cut := wording.run_cut spaced
    (single (front.flatMap Piece.text) (left ++ ' ' :: right) (back.flatMap Piece.text)
      (by rw [wholeParts]; simp))
    (back.filterMap Piece.word?)
  have prose (text : List Char) : Piece.word? ⟨.prose, false, text⟩ = some (.text text) := rfl
  rw [words_of_visible settings visible, words_of_visible settings broken.visible,
    words_of_visible settings broken.visibleAfter, wholeParts, firstParts, secondParts,
    List.filterMap_append, List.filterMap_cons_some (prose _), cut]
  simp only [List.filterMap_append, List.append_assoc, List.cons_append, List.nil_append,
    Wording.run_append wording, run_filterMap_ofText, Wording.run_cons]

end Broken

end LineReading

/-! ### Free text -/

/-- What a text says in the free text of a tag: nothing if it is blank. -/
def said? (text : List Char) : Option String :=
  if (trim text).isEmpty then none else some (String.ofList (trim text))

/-- The free text that texts make up, with single spaces where they are joined. -/
def freeText (texts : List (List Char)) : String := " ".intercalate (texts.filterMap said?)

theorem TagSection.bodyText_eq {α : Type} (content : α → Fragment) (tag : TagSection α) :
    tag.bodyText content = freeText ((tag.body content).map Fragment.text) := by
  rw [bodyText, freeText, List.filterMap_map, List.filterMap_map]
  rfl

theorem said?_of_visible {text : List Char} (visible : allBlank text = false) :
    said? text = some (String.ofList (trim text)) := by
  have nonempty : trim text ≠ [] := by simp [trim_eq_nil, visible]
  rw [said?, if_neg (by simpa using nonempty)]

/-- Joining is done at every space alike. -/
theorem intercalate_append_cons_append (front behind : List String) (left right : String) :
    " ".intercalate (front ++ (left ++ " " ++ right) :: behind) =
      " ".intercalate (front ++ left :: right :: behind) := by
  have here : " ".intercalate ((left ++ " " ++ right) :: behind) =
      " ".intercalate (left :: right :: behind) := by
    rw [String.intercalate_cons_append, String.intercalate_cons_cons]
  by_cases empty : front = []
  · rw [empty]
    exact here
  · rw [String.intercalate_append_of_ne_nil empty (by simp), here,
      String.intercalate_append_of_ne_nil empty (by simp)]

/-- A single-spaced text says the same as its parts around a space. -/
theorem freeText_cut {text after : List Char} (single : SingleSpaced (text ++ ' ' :: after))
    (visibleAfter : allBlank after = false) (front behind : List (List Char)) :
    freeText (front ++ (text ++ ' ' :: after) :: behind) =
      freeText (front ++ text :: after :: behind) := by
  rw [freeText, freeText, List.filterMap_append, List.filterMap_append]
  by_cases empty : text = []
  · have same : said? (' ' :: after) = said? after := rfl
    have nothing : said? [] = none := rfl
    rw [empty, List.nil_append, List.filterMap_cons_none nothing, List.filterMap_cons,
      List.filterMap_cons, same]
  · have visible := single.around.1.allBlank_eq_false empty
    have whole : allBlank (text ++ ' ' :: after) = false := by
      rw [allBlank] at visible ⊢
      rw [List.all_append, visible, Bool.false_and]
    have joined : String.ofList (trim text ++ ' ' :: trim after) =
        String.ofList (trim text) ++ " " ++ String.ofList (trim after) := by
      rw [List.append_cons, String.ofList_append, String.ofList_append]
    rw [List.filterMap_cons_some (said?_of_visible whole),
      List.filterMap_cons_some (said?_of_visible visible),
      List.filterMap_cons_some (said?_of_visible visibleAfter),
      single.trim_eq empty visibleAfter, joined, intercalate_append_cons_append]

/-! ### Outlines -/

namespace LineReading

/-- Lines that say the same behind whatever may stand before them. -/
structure Alike (settings : Settings) (lines lines' : List LineReading) : Prop where
  words : ∀ wording : Wording, wording.Rested →
    wording.run (lines.flatMap (words settings)) = wording.run (lines'.flatMap (words settings))
  freeText : ∀ front, freeText (front ++ lines.map text) = freeText (front ++ lines'.map text)

variable {settings : Settings} {lines lines' : List LineReading}

theorem Alike.refl (settings : Settings) (lines : List LineReading) : Alike settings lines lines :=
  ⟨fun _ _ => rfl, fun _ => rfl⟩

theorem Alike.cons (alike : Alike settings lines lines') (line : LineReading) :
    Alike settings (line :: lines) (line :: lines') where
  words := by
    intro wording rested
    simp only [List.flatMap_cons, Wording.run_append,
      alike.words _ (rested_run_words settings line rested)]
  freeText := by
    intro front
    have behind := alike.freeText (front ++ [line.text])
    simpa using behind

theorem Alike.texts_eq (alike : Alike settings lines lines') :
    Wording.empty.texts (lines.flatMap (LineReading.words settings)) =
      Wording.empty.texts (lines'.flatMap (LineReading.words settings)) := by
  rw [Wording.texts, Wording.texts, alike.words _ Wording.rested_empty]

/-- A broken line is alike the two lines that it is broken into. -/
theorem Broken.alike {whole first second : LineReading} (broken : Broken whole first second)
    (settings : Settings) (lines : List LineReading) :
    Alike settings (whole :: lines) (first :: second :: lines) where
  words := by
    intro wording rested
    have here := broken.run_words settings rested
    simp only [List.flatMap_cons]
    rw [← List.append_assoc, Wording.run_append, here, ← Wording.run_append]
  freeText := by
    intro front
    have single := broken.single
    rw [broken.text] at single
    rw [List.map_cons, broken.text]
    exact freeText_cut single broken.visibleAfter front (lines.map LineReading.text)

end LineReading

/-- What a tag says, and the texts of its passages. -/
def TagSection.digest (settings : Settings) (tag : TagSection LineReading) :
    TagReport × List (List Char) :=
  (tag.report fun reading => ⟨0, reading.text⟩,
    Wording.empty.texts (tag.lines.flatMap (LineReading.words settings)))

theorem TagSection.digest_eq {settings : Settings} {tag tag' : TagSection LineReading}
    (name : tag.name = tag'.name)
    (argument : tag.head.argument.map Fragment.text = tag'.head.argument.map Fragment.text)
    (free : freeText (tag.head.body.text :: tag.following.map LineReading.text) =
      freeText (tag'.head.body.text :: tag'.following.map LineReading.text))
    (lines : LineReading.Alike settings tag.lines tag'.lines) :
    tag.digest settings = tag'.digest settings := by
  have body (tag : TagSection LineReading) :
      (tag.body fun reading => ⟨0, reading.text⟩).map Fragment.text =
        tag.head.body.text :: tag.following.map LineReading.text := by
    rw [TagSection.body, List.map_cons, List.map_map]
    rfl
  rw [digest, digest, report, report, bodyText_eq, bodyText_eq, body, body, name, argument, free,
    lines.texts_eq]

/-- Outlines that say the same. -/
structure Outline.Alike (settings : Settings) (outline outline' : Outline LineReading) : Prop where
  description : LineReading.Alike settings outline.description outline'.description
  tags : outline.tags.map (TagSection.digest settings) =
    outline'.tags.map (TagSection.digest settings)

namespace Outline

variable {settings : Settings} {outline outline' : Outline LineReading}

theorem Alike.cons (alike : outline.Alike settings outline') (line : LineReading) :
    (cons LineReading.head? line outline).Alike settings
      (cons LineReading.head? line outline') := by
  obtain ⟨description, tags⟩ := alike
  rw [Outline.cons, Outline.cons]
  cases line.head? with
  | none => exact ⟨description.cons line, tags⟩
  | some head =>
    refine ⟨.refl settings [], ?_⟩
    have tag : TagSection.digest settings ⟨head, line, outline.description⟩ =
        TagSection.digest settings ⟨head, line, outline'.description⟩ :=
      TagSection.digest_eq rfl rfl (description.freeText [head.body.text]) (description.cons line)
    rw [List.map_cons, List.map_cons, tags, tag]

/-- The texts of passages are those of the description, and what is digested of the tags. -/
theorem wordings_sections (settings : Settings) (outline : Outline LineReading) :
    LineReading.wordings settings outline.sections =
      (Wording.empty.texts (outline.description.flatMap (LineReading.words settings))).map
          (.description, ·) ++
        (outline.tags.map (TagSection.digest settings)).zipIdx.flatMap fun (digest, index) =>
          digest.2.map (.tag index digest.1.name, ·) := by
  rw [LineReading.wordings, sections, List.flatMap_cons, List.flatMap_map, List.zipIdx_map,
    List.flatMap_map]
  rfl

theorem Alike.wordings_eq (alike : outline.Alike settings outline') :
    LineReading.wordings settings outline.sections =
      LineReading.wordings settings outline'.sections := by
  rw [wordings_sections, wordings_sections, alike.description.texts_eq, alike.tags]

theorem Alike.reports_eq (alike : outline.Alike settings outline') :
    outline.tags.map (TagSection.report fun reading => ⟨0, reading.text⟩) =
      outline'.tags.map (TagSection.report fun reading => ⟨0, reading.text⟩) := by
  have reports := congrArg (List.map Prod.fst) alike.tags
  rwa [List.map_map, List.map_map] at reports

end Outline

namespace LineReading

/-- The body of a tag line is the end of the line. -/
theorem exists_append_of_head? (reading : LineReading) (head : TagHead)
    (headed : reading.head? = some head) : ∃ front, reading.text = front ++ head.body.text := by
  obtain ⟨placed, parsed, rfl⟩ := Option.map_eq_some_iff.mp headed
  obtain ⟨front, parts, -⟩ := (TagHead.tiles_of_parse? parsed).isSpannedBy
  exact ⟨front, parts⟩

/-- Breaking a line changes nothing that a comment says. -/
theorem Broken.outline {whole first second : LineReading} (broken : Broken whole first second)
    (settings : Settings) (before behind : List LineReading) :
    (outline (before ++ whole :: behind)).Alike settings
      (outline (before ++ first :: second :: behind)) := by
  induction before with
  | cons line before ih => exact ih.cons line
  | nil =>
    have body := exists_append_of_head? whole
    have single := broken.single
    have heads := broken.heads
    simp only [List.nil_append, LineReading.outline, Outline.ofLines_cons]
    rw [Outline.cons, Outline.cons, Outline.cons, broken.headless]
    generalize whole.head? = wholeHead at heads body ⊢
    generalize first.head? = firstHead at heads ⊢
    cases heads with
    | none => exact ⟨broken.alike settings _, rfl⟩
    | some head chars rest =>
      obtain ⟨front, parts⟩ := body head rfl
      rw [parts, rest, ← List.append_nil (chars ++ ' ' :: second.text), ← List.append_assoc]
        at single
      have free := freeText_cut (single.part _ _ _) broken.visibleAfter []
        ((Outline.ofLines head? behind).description.map LineReading.text)
      rw [← rest] at free
      have tag : TagSection.digest settings
            ⟨head, whole, (Outline.ofLines head? behind).description⟩ =
          TagSection.digest settings ⟨{ head with body := ⟨head.body.start, chars⟩ }, first,
            second :: (Outline.ofLines head? behind).description⟩ :=
        TagSection.digest_eq rfl rfl free (broken.alike settings _)
      refine ⟨.refl settings [], ?_⟩
      rw [List.map_cons, List.map_cons, tag]

end LineReading

end CommentProse
