import CommentProse.Analysis
import CommentProse.Proofs.Markup.Reading
import CommentProse.Proofs.Text.Trimming

/-! # The parts of a tag line

A tag line is a line of blanks, `@` and a name. `TagHead.IsHeadOf` says what its parts are without
scanning: they lie side by side and make up the line, the marker ends with the sign, and the name
and the argument are as long as they can be. The parts that are read off a line are the only ones of
this kind (`TagHead.parse?_eq_some_iff`). There are two shapes of heads, with an argument and
without one; each is computed once (`TagHead.ofName_word`, `TagHead.ofName_bare`). The spans of the
parts, followed by spans of the body, are spans of the line.
-/

namespace CommentProse

namespace TagHead

/-- The parts are adjacent, begin with the line and make up its text. -/
structure Tiles (content : Fragment) (head : TagHead) : Prop where
  marker : head.marker.start = content.start
  name : head.name.start = head.marker.stop
  gap : head.gap.start = head.name.stop
  argument : ∀ argument, head.argument = some argument → argument.start = head.gap.stop
  body : head.body.start = (head.argument.map Fragment.stop).getD head.gap.stop
  text : head.marker.text ++ head.name.text ++ head.gap.text ++
    (head.argument.map Fragment.text).getD [] ++ head.body.text = content.text

/-- What stands behind the name. -/
def behindName (head : TagHead) : List Char :=
  head.gap.text ++ (head.argument.map Fragment.text).getD [] ++ head.body.text

/-- The line is a tag line, and these are its parts. -/
structure IsHeadOf (content : Fragment) (head : TagHead) : Prop where
  /-- The parts lie side by side and make up the line. -/
  tiles : Tiles content head
  /-- The marker is the indentation and the sign. -/
  marker : ∃ indent, head.marker.text = indent ++ ['@'] ∧ ∀ c ∈ indent, isBlank c = true
  /-- The name is not empty, and goes on as long as there are characters of names. -/
  named : head.name.text ≠ []
  name : ∀ c ∈ head.name.text, isNameChar c = true
  name_ends : ∀ c ∈ head.behindName.head?, isNameChar c = false
  /-- There is an argument if the tag takes one and anything visible stands behind the name. -/
  argument : head.argument.isSome = true ↔
    BlockTag.takesArgument head.tagName = true ∧ ∃ c ∈ head.behindName, isBlank c = false
  /-- The argument is the first word behind the name, with the blanks before it as the gap. -/
  word : ∀ word, head.argument = some word → (∀ c ∈ head.gap.text, isBlank c = true) ∧
    word.text ≠ [] ∧ (∀ c ∈ word.text, isBlank c = false) ∧
      ∀ c ∈ head.body.text.head?, isBlank c = true
  /-- Without an argument all that stands behind the name is the body. -/
  bare : head.argument = none → head.gap.text = [] ∧ head.body.text = head.behindName

/-! ### The two shapes of a head -/

section Shapes

variable {marker : Fragment} {start : Nat} {name gap word body rest : List Char}

/-- A line with an argument, from the name on. -/
theorem ofName_word (named : ∀ c ∈ name, isNameChar c = true)
    (ends : ∀ c ∈ (gap ++ (word ++ body)).head?, isNameChar c = false)
    (takes : BlockTag.takesArgument (String.ofList name) = true)
    (blank : ∀ c ∈ gap, isBlank c = true) (nonempty : word ≠ [])
    (visible : ∀ c ∈ word, isBlank c = false) (stops : ∀ c ∈ body.head?, isBlank c = true) :
    ofName marker ⟨start, name ++ (gap ++ (word ++ body))⟩ =
      ⟨marker, ⟨start, name⟩, ⟨start + width name, gap⟩,
        some ⟨start + width name + width gap, word⟩,
        ⟨start + width name + width gap + width word, body⟩⟩ := by
  have begins : ∀ c ∈ (word ++ body).head?, isBlank c = false := by
    obtain ⟨c, word, rfl⟩ := List.exists_cons_of_ne_nil nonempty
    simpa using visible c List.mem_cons_self
  obtain ⟨nameIs, behind⟩ := scan_append named ends
  obtain ⟨gapIs, wordOn⟩ := scan_append blank begins
  obtain ⟨wordIs, bodyIs⟩ := @scan_append (!isBlank ·) word body (by simpa using visible)
    (by simpa using stops)
  rw [ofName]
  dsimp only [Fragment.spanWhile, Fragment.takeWhile, Fragment.dropWhile]
  rw [nameIs, behind, gapIs, wordOn, wordIs, bodyIs]
  exact if_pos (by simp [takes, Fragment.isEmpty, nonempty])

/-- A line without an argument, from the name on. -/
theorem ofName_bare (named : ∀ c ∈ name, isNameChar c = true)
    (ends : ∀ c ∈ rest.head?, isNameChar c = false)
    (none : ¬(BlockTag.takesArgument (String.ofList name) = true ∧ ∃ c ∈ rest, isBlank c = false)) :
    ofName marker ⟨start, name ++ rest⟩ =
      ⟨marker, ⟨start, name⟩, ⟨start + width name, []⟩, .none, ⟨start + width name, rest⟩⟩ := by
  obtain ⟨nameIs, behind⟩ := scan_append named ends
  rw [ofName]
  dsimp only [Fragment.spanWhile, Fragment.takeWhile, Fragment.dropWhile]
  rw [nameIs, behind]
  refine if_neg fun cut => none ?_
  obtain ⟨takes, nonempty⟩ := Bool.and_eq_true_iff.mp cut
  refine ⟨takes, ?_⟩
  by_contra blank
  have nothing : rest.dropWhile isBlank = [] :=
    List.dropWhile_eq_nil_iff.mpr (by simpa using blank)
  simp [nothing, Fragment.isEmpty] at nonempty

end Shapes

/-! ### Reading a tag line -/

/-- A line of blanks and the sign is a tag line if a name begins behind the sign. -/
theorem parse?_of_sign {start : Nat} {text rest : List Char}
    (signed : text.dropWhile isBlank = '@' :: rest) :
    parse? ⟨start, text⟩ =
      if rest.takeWhile isNameChar = [] then none
      else some (ofName ⟨start, text.takeWhile isBlank ++ ['@']⟩
        ⟨start + width (text.takeWhile isBlank ++ ['@']), rest⟩) := by
  have sign : ((Fragment.mk start text).dropWhile isBlank).text = '@' :: rest := signed
  rw [parse?]
  dsimp only [Fragment.spanWhile]
  rw [sign, width_append, ← Nat.add_assoc]
  by_cases unnamed : rest.takeWhile isNameChar = []
  · rw [if_pos unnamed]
    exact if_pos (List.isEmpty_iff.mpr unnamed)
  · rw [if_neg unnamed]
    exact if_neg (mt List.isEmpty_iff.mp unnamed)

theorem parse?_of_not_sign {start : Nat} {text : List Char}
    (unsigned : ∀ rest, text.dropWhile isBlank ≠ '@' :: rest) : parse? ⟨start, text⟩ = none := by
  rw [parse?]
  dsimp only [Fragment.spanWhile]
  split
  · next rest signed => exact absurd signed (unsigned rest)
  · rfl

variable {content : Fragment} {head : TagHead}

/-- A line is read as a tag line exactly if it is made of blanks, the sign, a name and what does not
go on with the name. -/
theorem parse?_eq_some_iff_exists :
    parse? content = some head ↔
      ∃ indent name rest, content.text = indent ++ ['@'] ++ (name ++ rest) ∧
        (∀ c ∈ indent, isBlank c = true) ∧ name ≠ [] ∧ (∀ c ∈ name, isNameChar c = true) ∧
        (∀ c ∈ rest.head?, isNameChar c = false) ∧
        head = ofName ⟨content.start, indent ++ ['@']⟩
          ⟨content.start + width (indent ++ ['@']), name ++ rest⟩ := by
  obtain ⟨start, text⟩ := content
  constructor
  · intro parsed
    obtain ⟨behind, signed⟩ : ∃ behind, text.dropWhile isBlank = '@' :: behind := by
      by_contra unsigned
      rw [parse?_of_not_sign (not_exists.mp unsigned)] at parsed
      cases parsed
    rw [parse?_of_sign signed] at parsed
    split at parsed
    · cases parsed
    · next named =>
      refine ⟨text.takeWhile isBlank, behind.takeWhile isNameChar, behind.dropWhile isNameChar, ?_,
        fun c => List.mem_takeWhile_imp, named, fun c => List.mem_takeWhile_imp, head?_dropWhile,
        ?_⟩
      · rw [List.takeWhile_append_dropWhile, List.append_assoc, List.singleton_append, ← signed,
          List.takeWhile_append_dropWhile]
      · rw [List.takeWhile_append_dropWhile]
        exact (Option.some.inj parsed).symm
  · rintro ⟨indent, name, rest, rfl, blank, nonempty, named, ends, rfl⟩
    have visible : ∀ c ∈ ('@' :: (name ++ rest)).head?, isBlank c = false := by simp; decide
    obtain ⟨indentIs, sign⟩ := scan_append blank visible
    rw [List.append_assoc, List.singleton_append, parse?_of_sign sign, indentIs,
      (scan_append named ends).1, if_neg nonempty]

/-- The first word of a text that is not all blank. -/
theorem exists_word {rest : List Char} (visible : ∃ c ∈ rest, isBlank c = false) :
    ∃ gap word body, rest = gap ++ (word ++ body) ∧ (∀ c ∈ gap, isBlank c = true) ∧ word ≠ [] ∧
      (∀ c ∈ word, isBlank c = false) ∧ ∀ c ∈ body.head?, isBlank c = true := by
  have first := beginsVisibly_dropWhile rest
  obtain ⟨c, behind, shape⟩ : ∃ c behind, rest.dropWhile isBlank = c :: behind := by
    refine List.exists_cons_of_ne_nil fun nothing => ?_
    obtain ⟨c, member, ends⟩ := visible
    rw [List.dropWhile_eq_nil_iff.mp nothing c member] at ends
    cases ends
  have begins : isBlank c = false := first c (by rw [shape]; rfl)
  refine ⟨rest.takeWhile isBlank, (c :: behind).takeWhile (!isBlank ·),
    (c :: behind).dropWhile (!isBlank ·), ?_, fun c => List.mem_takeWhile_imp, ?_, ?_, ?_⟩
  · rw [List.takeWhile_append_dropWhile, ← shape, List.takeWhile_append_dropWhile]
  · simp [begins]
  · intro d member
    simpa using List.mem_takeWhile_imp member
  · intro d ends
    simpa using head?_dropWhile d ends

section Parts

variable {indent name gap word body rest : List Char}

/-- The parts of a line with an argument. -/
private theorem isHeadOf_word
    (text : content.text = indent ++ ['@'] ++ (name ++ (gap ++ (word ++ body))))
    (blank : ∀ c ∈ indent, isBlank c = true) (nonempty : name ≠ [])
    (named : ∀ c ∈ name, isNameChar c = true)
    (ends : ∀ c ∈ (gap ++ (word ++ body)).head?, isNameChar c = false)
    (takes : BlockTag.takesArgument (String.ofList name) = true)
    (between : ∀ c ∈ gap, isBlank c = true) (some : word ≠ [])
    (visible : ∀ c ∈ word, isBlank c = false) (stops : ∀ c ∈ body.head?, isBlank c = true) :
    IsHeadOf content (ofName ⟨content.start, indent ++ ['@']⟩
      ⟨content.start + width (indent ++ ['@']), name ++ (gap ++ (word ++ body))⟩) := by
  rw [ofName_word named ends takes between some visible stops]
  refine ⟨⟨rfl, rfl, rfl, ?_, rfl, ?_⟩, ⟨indent, rfl, blank⟩, nonempty, named, ?_, ?_, ?_, by simp⟩
  · rintro _ ⟨⟩
    rfl
  · simp [text]
  · simpa [behindName] using ends
  · obtain ⟨c, word, rfl⟩ := List.exists_cons_of_ne_nil some
    have first := visible c List.mem_cons_self
    simp only [Option.isSome_some, tagName, takes, true_and, true_iff]
    exact ⟨c, by simp [behindName], first⟩
  · rintro _ ⟨⟩
    exact ⟨between, some, visible, stops⟩

/-- The parts of a line without an argument. -/
private theorem isHeadOf_bare (text : content.text = indent ++ ['@'] ++ (name ++ rest))
    (blank : ∀ c ∈ indent, isBlank c = true) (nonempty : name ≠ [])
    (named : ∀ c ∈ name, isNameChar c = true) (ends : ∀ c ∈ rest.head?, isNameChar c = false)
    (none : ¬(BlockTag.takesArgument (String.ofList name) = true ∧ ∃ c ∈ rest, isBlank c = false)) :
    IsHeadOf content (ofName ⟨content.start, indent ++ ['@']⟩
      ⟨content.start + width (indent ++ ['@']), name ++ rest⟩) := by
  rw [ofName_bare named ends none]
  refine ⟨⟨rfl, rfl, rfl, by simp, rfl, by simp [text]⟩, ⟨indent, rfl, blank⟩, nonempty, named, ?_,
    ?_, by simp, ?_⟩
  · simpa [behindName] using ends
  · simpa [behindName, tagName] using none
  · exact fun _ => ⟨rfl, by simp [behindName]⟩

end Parts

/-- The parts of a head make up the head that is read from its name on. -/
private theorem IsHeadOf.eq_ofName (isHead : IsHeadOf content head) :
    head = ofName ⟨content.start, head.marker.text⟩
      ⟨content.start + width head.marker.text, head.name.text ++ head.behindName⟩ := by
  obtain ⟨⟨marker, name, gap, argument, body, -⟩, -, -, named, ends, cut, word, bare⟩ := isHead
  obtain ⟨⟨_, markerText⟩, ⟨_, nameText⟩, ⟨_, gapText⟩, word?, ⟨_, bodyText⟩⟩ := head
  dsimp only [Fragment.stop] at marker name gap
  subst marker name gap
  cases word? with
  | none =>
    obtain ⟨noGap, behind⟩ := bare rfl
    dsimp only [Option.map_none, Option.getD_none, Fragment.stop] at body noGap
    subst body noGap
    rw [ofName_bare named ends (mt cut.mpr (by simp)), ← behind]
    rfl
  | some found =>
    obtain ⟨_, wordText⟩ := found
    obtain ⟨between, nonempty, visible, stops⟩ := word _ rfl
    have start := argument _ rfl
    dsimp only [Option.map_some, Option.getD_some, Fragment.stop] at body start
    subst body start
    have behind := List.append_assoc gapText wordText bodyText
    rw [behindName, Option.map_some, Option.getD_some, behind] at ends ⊢
    rw [ofName_word named ends (cut.mp rfl).1 between nonempty visible stops]

/-- The head of a tag line is made of its parts, and nothing else is. -/
theorem parse?_eq_some_iff : parse? content = some head ↔ IsHeadOf content head := by
  rw [parse?_eq_some_iff_exists]
  constructor
  · rintro ⟨indent, name, rest, text, blank, nonempty, named, ends, rfl⟩
    by_cases cut : BlockTag.takesArgument (String.ofList name) = true ∧
        ∃ c ∈ rest, isBlank c = false
    · obtain ⟨gap, word, body, rfl, between, some, visible, stops⟩ := exists_word cut.2
      exact isHeadOf_word text blank nonempty named ends cut.1 between some visible stops
    · exact isHeadOf_bare text blank nonempty named ends cut
  · intro isHead
    obtain ⟨indent, marker, blank⟩ := isHead.marker
    refine ⟨indent, head.name.text, head.behindName, ?_, blank, isHead.named, isHead.name,
      isHead.name_ends, ?_⟩
    · rw [← isHead.tiles.text, ← marker, behindName]
      simp only [List.append_assoc]
    · rw [← marker]
      exact isHead.eq_ofName

/-- A line is a tag line if blanks, the sign and the first character of a name come first. -/
theorem isSome_parse?_iff :
    (parse? content).isSome = true ↔
      ∃ indent c rest, content.text = indent ++ '@' :: c :: rest ∧
        (∀ d ∈ indent, isBlank d = true) ∧ isNameChar c = true := by
  rw [Option.isSome_iff_exists]
  constructor
  · rintro ⟨head, parsed⟩
    obtain ⟨indent, name, rest, text, blank, nonempty, named, -, -⟩ :=
      parse?_eq_some_iff_exists.mp parsed
    obtain ⟨c, name, rfl⟩ := List.exists_cons_of_ne_nil nonempty
    exact ⟨indent, c, name ++ rest, by simpa using text, blank, named c List.mem_cons_self⟩
  · rintro ⟨indent, c, rest, text, blank, named⟩
    refine ⟨_, parse?_eq_some_iff_exists.mpr ⟨indent, (c :: rest).takeWhile isNameChar,
      (c :: rest).dropWhile isNameChar, ?_, blank, ?_, fun d => List.mem_takeWhile_imp,
      head?_dropWhile, rfl⟩⟩
    · rw [List.takeWhile_append_dropWhile, text, List.append_assoc, List.singleton_append]
    · simp [named]

/-- Nothing of a tag line is lost between its parts. -/
theorem tiles_of_parse? (parsed : parse? content = some head) : Tiles content head :=
  (parse?_eq_some_iff.mp parsed).tiles

/-- Blanks stand before an argument, and a blank behind it. -/
theorem blanks_of_argument (parsed : parse? content = some head)
    (cut : head.argument.isSome = true) :
    (∀ c ∈ head.gap.text, isBlank c = true) ∧ ∀ c ∈ head.body.text.head?, isBlank c = true := by
  obtain ⟨word, given⟩ := Option.isSome_iff_exists.mp cut
  obtain ⟨gap, -, -, body⟩ := (parse?_eq_some_iff.mp parsed).word word given
  exact ⟨gap, body⟩

/-! ### The spans of a head -/

/-- The body stands behind the other parts. -/
theorem Tiles.body_start (tiles : Tiles content head) :
    head.body.start = content.start + width (head.marker.text ++ head.name.text ++ head.gap.text ++
      (head.argument.map Fragment.text).getD []) := by
  obtain ⟨marker, name, gap, argument, body, -⟩ := tiles
  rw [body]
  cases given : head.argument with
  | none => simp [Fragment.stop, gap, name, marker, Nat.add_assoc]
  | some word => simp [Fragment.stop, argument word given, gap, name, marker, Nat.add_assoc]

/-- The spans of a head are spans of the line up to its body. -/
theorem Tiles.isSpannedBy (tiles : Tiles content head) :
    ∃ front, content.text = front ++ head.body.text ∧
      head.body.start = content.start + width front ∧
      Fragment.IsSpannedBy ⟨content.start, front⟩ head.spans := by
  have part := Fragment.IsSpannedBy.ofFragment
  have named := (part .markup head.marker).append (part .tagName head.name) tiles.name
  have gapped := named.append (part .markup head.gap) (by
    simp [tiles.gap, Fragment.stop, tiles.name, Nat.add_assoc])
  have text := tiles.text
  have body := tiles.body
  rw [spans]
  cases argument : head.argument with
  | none =>
    rw [argument] at text body
    refine ⟨_, text.symm, ?_, ?_⟩
    · simp [body, Fragment.stop, tiles.gap, tiles.name, tiles.marker, Nat.add_assoc]
    · simpa [tiles.marker] using gapped
  | some word =>
    rw [argument] at text body
    have meets := tiles.argument word argument
    have whole := gapped.append (part .argument word) (by
      simp [meets, Fragment.stop, tiles.gap, tiles.name, Nat.add_assoc])
    refine ⟨_, text.symm, ?_, ?_⟩
    · simp [body, meets, Fragment.stop, tiles.gap, tiles.name, tiles.marker, Nat.add_assoc]
    · simpa [tiles.marker] using whole

theorem Tiles.body_stop (tiles : Tiles content head) : head.body.stop = content.stop := by
  obtain ⟨front, parts, start, -⟩ := tiles.isSpannedBy
  rw [Fragment.stop, Fragment.stop, start, parts, width_append, Nat.add_assoc]

/-- The spans of a head stand before the body, and none of them is prose. -/
theorem Tiles.of_mem_spans (tiles : Tiles content head) {span : Span}
    (member : span ∈ head.spans) :
    span.range.stop ≤ head.body.start ∧ span.role ≠ .prose := by
  obtain ⟨front, -, start, spanned⟩ := tiles.isSpannedBy
  refine ⟨start ▸ (spanned.tiles.pairwise.2 span member).2.2, ?_⟩
  obtain ⟨marker, name, gap, argument, body⟩ := head
  have role {role : Role} (fragment : Fragment) (among : span ∈ Span.ofFragment role fragment) :
      span.role = role := by
    rw [Span.ofFragment] at among
    split at among
    · simp at among
    · rw [List.mem_singleton.mp among]
  simp only [spans, List.mem_append] at member
  rcases member with ((inMarker | inName) | inGap) | inArgument
  · simp [role _ inMarker]
  · simp [role _ inName]
  · simp [role _ inGap]
  · cases argument with
    | none => simp at inArgument
    | some word => simp [role word inArgument]

/-- The parts of a tag line. -/
def parts (head : TagHead) : List Fragment :=
  [head.marker, head.name, head.gap] ++ head.argument.toList ++ [head.body]

/-- The parts of a tag line occur wherever the line does. -/
theorem Tiles.occursIn (tiles : Tiles content head) {text : List Char}
    (occurs : content.OccursIn text) : ∀ part ∈ head.parts, part.OccursIn text := by
  obtain ⟨marker, name, gap, argument, body, whole⟩ := tiles
  have adjacent : Fragment.Adjacent content.start head.body.stop head.parts := by
    rw [parts]
    cases given : head.argument with
    | none =>
      rw [given] at body
      exact ⟨marker, name, gap, body, rfl⟩
    | some word =>
      rw [given] at body
      exact ⟨marker, name, gap, argument word given, body, rfl⟩
  have spelled : head.parts.flatMap Fragment.text = content.text := by
    rw [← whole, parts]
    cases head.argument <;> simp
  refine adjacent.occursIn ?_
  rwa [spelled]

theorem Tiles.body_occursIn (tiles : Tiles content head) {text : List Char}
    (occurs : content.OccursIn text) : head.body.OccursIn text :=
  tiles.occursIn occurs head.body (by simp [parts])

end TagHead

end CommentProse
