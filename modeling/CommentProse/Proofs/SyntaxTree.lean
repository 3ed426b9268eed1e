import CommentProse.Proofs.Coverage
import CommentProse.SyntaxTree

/-! # When a syntax tree is lossless

The tokens of a tree are taken from the comment, so its text is that of the comment as far as the
tokens leave no gap. They leave one in a single place: a carriage return between the last line and
the closer is in no token. With it the tree lacks one character, and the closer and what follows it
stand one byte too early; without it the tree spells the comment and every token is in place.
-/

namespace CommentProse

namespace Element

mutual

/-- The tokens of an element, from left to right, each with its range in the tree. -/
def tokens : Element → List (TokenKind × ByteRange × List Char)
  | .token kind range text => [(kind, range, text)]
  | .node _ _ children => tokensOfAll children

/-- The tokens of elements, from left to right. -/
def tokensOfAll : List Element → List (TokenKind × ByteRange × List Char)
  | [] => []
  | element :: elements => element.tokens ++ tokensOfAll elements

end

end Element

namespace SyntaxTree

/-! ### Laying out -/

/-- Tokens laid out one after the other from `start` on. -/
def layOut (start : Nat) : List (TokenKind × Fragment) → List (TokenKind × ByteRange × List Char)
  | [] => []
  | (kind, source) :: tokens =>
    (kind, ⟨start, start + width source.text⟩, source.text) ::
      layOut (start + width source.text) tokens

/-- A token with the range in the comment that it was taken from. -/
def inPlace (token : TokenKind × Fragment) : TokenKind × ByteRange × List Char :=
  (token.1, token.2.range, token.2.text)

/-- The text of tokens. -/
def textOf (tokens : List (TokenKind × Fragment)) : List Char :=
  tokens.flatMap fun token => token.2.text

theorem textOf_append (front back : List (TokenKind × Fragment)) :
    textOf (front ++ back) = textOf front ++ textOf back := List.flatMap_append

theorem layOut_append (start : Nat) (front back : List (TokenKind × Fragment)) :
    layOut start (front ++ back) =
      layOut start front ++ layOut (start + width (textOf front)) back := by
  induction front generalizing start with
  | nil => rfl
  | cons token front ih =>
    simp only [List.cons_append, layOut, ih, textOf, List.flatMap_cons, width_append,
      Nat.add_assoc]

/-- Tokens that are adjacent in the comment stand in the tree where they stand in the comment. -/
theorem layOut_of_adjacent {start stop : Nat} {tokens : List (TokenKind × Fragment)}
    (adjacent : Fragment.Adjacent start stop (tokens.map Prod.snd)) :
    layOut start tokens = tokens.map inPlace ∧ start + width (textOf tokens) = stop := by
  induction tokens generalizing start with
  | nil => exact ⟨rfl, adjacent⟩
  | cons token tokens ih =>
    obtain ⟨kind, source⟩ := token
    obtain ⟨rfl, rest⟩ := adjacent
    obtain ⟨placed, reached⟩ := ih rest
    constructor
    · rw [layOut, List.map_cons]
      exact congrArg (_ :: ·) placed
    · rw [← reached, Fragment.stop, textOf, textOf, List.flatMap_cons, width_append, Nat.add_assoc]

/-- A token that is in place stands where the tokens before it end. -/
theorem start_eq_of_layOut {start : Nat} {front back : List (TokenKind × Fragment)}
    {token : TokenKind × Fragment}
    (placed : layOut start (front ++ token :: back) = (front ++ token :: back).map inPlace) :
    start + width (textOf front) = token.2.start := by
  induction front generalizing start with
  | nil =>
    have same := (List.cons.inj placed).1
    simp only [inPlace, Prod.mk.injEq, Fragment.range, ByteRange.mk.injEq] at same
    exact same.2.1.1
  | cons first front ih =>
    have rest := ih (List.cons.inj placed).2
    rwa [textOf, List.flatMap_cons, width_append, ← Nat.add_assoc]

/-- Adjacent tokens with adjacent ones behind them are all in place exactly if the two meet. -/
theorem layOut_append_iff {start reach stop : Nat} {front back : List (TokenKind × Fragment)}
    {token : TokenKind × Fragment} (before : Fragment.Adjacent start reach (front.map Prod.snd))
    (behind : Fragment.Adjacent token.2.start stop ((token :: back).map Prod.snd)) :
    layOut start (front ++ token :: back) = (front ++ token :: back).map inPlace ↔
      reach = token.2.start := by
  constructor
  · intro placed
    rw [← start_eq_of_layOut placed]
    exact (layOut_of_adjacent before).2.symm
  · rintro rfl
    have every := before.append behind
    rw [← List.map_append] at every
    exact (layOut_of_adjacent every).1

mutual

theorem place_eq (start : Nat) (tree : SyntaxTree) :
    (tree.place start).range = ⟨start, start + width tree.text⟩ ∧
      (tree.place start).tokens = layOut start tree.tokens := by
  cases tree with
  | token kind source => exact ⟨by simp [place, Element.range, text, tokens], rfl⟩
  | node kind children =>
    obtain ⟨reached, placed⟩ := placeAll_eq start children
    refine ⟨?_, placed⟩
    rw [place]
    exact congrArg (ByteRange.mk start) reached

theorem placeAll_eq (start : Nat) (trees : List SyntaxTree) :
    ((placeAll start trees).getLast?.map (·.range.stop)).getD start =
        start + width (textOf (tokensOfAll trees)) ∧
      Element.tokensOfAll (placeAll start trees) = layOut start (tokensOfAll trees) := by
  cases trees with
  | nil => exact ⟨rfl, rfl⟩
  | cons tree trees =>
    obtain ⟨range, first⟩ := place_eq start tree
    obtain ⟨reached, rest⟩ := placeAll_eq (start + width tree.text) trees
    rw [placeAll, tokensOfAll, layOut_append, textOf_append, width_append]
    rw [range]
    constructor
    · rw [← Nat.add_assoc]
      change _ = start + width tree.text + _
      rw [← reached, List.getLast?_cons]
      cases (placeAll (start + width tree.text) trees).getLast? <;> simp [range]
    · rw [Element.tokensOfAll, first, rest]
      rfl

end

/-! ### The tokens of a comment -/

theorem tokensOfAll_append (front back : List SyntaxTree) :
    tokensOfAll (front ++ back) = tokensOfAll front ++ tokensOfAll back := by
  induction front with
  | nil => rfl
  | cons tree front ih => simp [tokensOfAll, ih]

theorem tokensOfAll_flatMap {α : Type} (items : List α) (trees : α → List SyntaxTree) :
    tokensOfAll (items.flatMap trees) = items.flatMap fun item => tokensOfAll (trees item) := by
  induction items with
  | nil => rfl
  | cons item items ih => simp [tokensOfAll_append, ih]

theorem tokensOfAll_map {α : Type} (items : List α) (tree : α → SyntaxTree) :
    tokensOfAll (items.map tree) = items.flatMap fun item => (tree item).tokens := by
  induction items with
  | nil => rfl
  | cons item items ih => simp [tokensOfAll, ih]

theorem adjacent_ofFragment (kind : TokenKind) (source : Fragment) :
    Fragment.Adjacent source.start source.stop
      ((tokensOfAll (ofFragment kind source)).map Prod.snd) := by
  obtain ⟨start, text⟩ := source
  cases text with
  | nil => rfl
  | cons c text => exact ⟨rfl, rfl⟩

theorem textOf_ofFragment (kind : TokenKind) (source : Fragment) :
    textOf (tokensOfAll (ofFragment kind source)) = source.text := by
  obtain ⟨start, text⟩ := source
  cases text with
  | nil => rfl
  | cons c text => exact List.append_nil _

theorem mem_ofFragment {kind : TokenKind} {source : Fragment} {token : TokenKind × Fragment}
    (member : token ∈ tokensOfAll (ofFragment kind source)) : token.2 = source := by
  rw [ofFragment] at member
  split at member
  · simp [tokensOfAll] at member
  · obtain rfl : token = (kind, source) := by simpa [tokensOfAll, tokens] using member
    rfl

/-- The tree has the tokens of all lines between those of the delimiters, whatever its sections. -/
theorem tokens_ofAnalysis (analysis : Analysis) :
    (ofAnalysis analysis).tokens =
      tokensOfAll (ofFragment .opener DocComment.openerFragment) ++
      analysis.lines.flatMap (fun line => (ofLine line).tokens) ++
      tokensOfAll (ofFragment .closer analysis.comment.closerFragment) ++
      tokensOfAll (ofFragment .trailing analysis.comment.trailingFragment) := by
  have description (lines : List SpannedLine) :
      tokensOfAll (ofDescription lines) = lines.flatMap fun line => (ofLine line).tokens := by
    cases lines with
    | nil => rfl
    | cons line lines =>
      exact (List.append_nil _).trans (tokensOfAll_map (line :: lines) ofLine)
  have tags (tags : List (TagSection SpannedLine)) :
      tokensOfAll (tags.map fun tag => .node .blockTag (tag.lines.map ofLine)) =
        (tags.flatMap TagSection.lines).flatMap fun line => (ofLine line).tokens := by
    rw [tokensOfAll_map, List.flatMap_assoc]
    simp only [tokens, tokensOfAll_map]
  have lines := Outline.lines_ofLines SpannedLine.tagHead? analysis.lines
  rw [Outline.lines] at lines
  rw [ofAnalysis, tokens]
  simp only [tokensOfAll_append, description, tags]
  rw [← lines]
  simp only [List.flatMap_append, List.append_assoc]
  rfl

variable {line : SpannedLine}

theorem tokens_ofLine (line : SpannedLine) :
    (ofLine line).tokens =
      tokensOfAll (ofFragment .margin line.line.marginFragment) ++
      line.spans.flatMap (fun span =>
        tokensOfAll (ofFragment (.span span.role) (line.textOf span))) ++
      tokensOfAll (lineBreak line.line) := by
  rw [ofLine, tokens, tokensOfAll_append, tokensOfAll_append, tokensOfAll_flatMap]

/-- The margin and the spans of a line are adjacent. -/
private theorem adjacent_margin_spans (spanned : line.line.content.IsSpannedBy line.spans) :
    Fragment.Adjacent line.line.start line.line.stop
      ((tokensOfAll (ofFragment .margin line.line.marginFragment) ++
        line.spans.flatMap (fun span =>
          tokensOfAll (ofFragment (.span span.role) (line.textOf span)))).map Prod.snd) := by
  have margin := adjacent_ofFragment .margin line.line.marginFragment
  have slices : Fragment.Adjacent _ _ (line.spans.map line.textOf) := spanned.adjacent_slices
  have content := slices.flatMap fun span _ =>
    adjacent_ofFragment (.span span.role) (line.textOf span)
  rw [List.map_append, List.map_flatMap]
  exact margin.append content

private theorem textOf_spans (spanned : line.line.content.IsSpannedBy line.spans) :
    textOf (line.spans.flatMap fun span =>
      tokensOfAll (ofFragment (.span span.role) (line.textOf span))) = line.line.text := by
  have each (span : Span) : (tokensOfAll (ofFragment (.span span.role) (line.textOf span))).flatMap
      (fun token => token.2.text) = (line.textOf span).text := textOf_ofFragment _ _
  rw [textOf, List.flatMap_assoc]
  simp only [each]
  exact spanned.flatMap_slice

/-- A line that ends with a line feed is in the tree with its terminator. -/
theorem adjacent_ofLine (spanned : line.line.content.IsSpannedBy line.spans)
    (feed : line.line.terminator.getLast? = some '\n') :
    Fragment.Adjacent line.line.fragment.start line.line.fragment.stop
        ((ofLine line).tokens.map Prod.snd) ∧
      textOf (ofLine line).tokens = line.line.source := by
  have ending : tokensOfAll (lineBreak line.line) =
      [(.lineBreak, ⟨line.line.stop, line.line.terminator⟩)] := by
    rw [lineBreak, if_pos feed]
    rfl
  rw [tokens_ofLine, ending]
  constructor
  · rw [List.map_append]
    refine (adjacent_margin_spans spanned).append ⟨rfl, ?_⟩
    simp [Fragment.Adjacent, Fragment.stop, CommentLine.fragment, CommentLine.source,
      CommentLine.stop, CommentLine.content, Nat.add_assoc]
  · rw [textOf_append, textOf_append, textOf_ofFragment, textOf_spans spanned]
    simp [textOf, CommentLine.source, CommentLine.marginFragment]

/-- A line without a line feed is in the tree without what terminates it. -/
theorem adjacent_ofLine_last (spanned : line.line.content.IsSpannedBy line.spans)
    (bare : line.line.terminator.getLast? ≠ some '\n') :
    Fragment.Adjacent line.line.start line.line.stop ((ofLine line).tokens.map Prod.snd) ∧
      textOf (ofLine line).tokens = line.line.margin ++ line.line.text := by
  have ending : tokensOfAll (lineBreak line.line) = [] := by
    rw [lineBreak, if_neg bare]
    rfl
  rw [tokens_ofLine, ending, List.append_nil]
  refine ⟨adjacent_margin_spans spanned, ?_⟩
  rw [textOf_append, textOf_ofFragment, textOf_spans spanned]
  rfl

variable {settings : Settings} {block : Fragment} {analysis : Analysis}

/-- The tokens of the lines spell the body up to a carriage return at its end, each where it stands
in the comment. -/
private theorem adjacent_lines (reading : analysis.IsReadingOf settings block) :
    ∃ carriage reach, carriage = (if analysis.comment.body.getLast? = some '\r' then ['\r'] else []) ∧
      reach + width carriage = analysis.comment.closerFragment.start ∧
      Fragment.Adjacent (width opener) reach
        ((analysis.lines.flatMap fun line => (ofLine line).tokens).map Prod.snd) ∧
      textOf (analysis.lines.flatMap fun line => (ofLine line).tokens) ++ carriage =
        analysis.comment.body := by
  obtain ⟨written, final, split, feeds, terminator, meets⟩ := analysis.comment.lines_eq_append
  have adjacent := analysis.comment.adjacent_lines
  have source : analysis.comment.lines.flatMap CommentLine.source = analysis.comment.body :=
    CommentLine.flatMap_source_lines _ _
  rw [split] at adjacent source
  rw [← reading.lines] at split
  obtain ⟨lines, lasts, whole, rfl, lastLine⟩ := List.map_eq_append_iff.mp split
  obtain ⟨last, rfl, rfl⟩ := List.map_eq_singleton_iff.mp lastLine
  have spanned : ∀ line ∈ lines ++ [last], line.line.content.IsSpannedBy line.spans := by
    intro line member
    exact reading.spanned line (whole ▸ member)
  have earlier : ∀ line ∈ lines, Fragment.Adjacent line.line.fragment.start
      line.line.fragment.stop ((ofLine line).tokens.map Prod.snd) ∧
      textOf (ofLine line).tokens = line.line.source := by
    intro line member
    apply adjacent_ofLine (spanned line (List.mem_append_left _ member))
    rcases feeds line.line (List.mem_map_of_mem member) with feed | feed <;> rw [feed] <;> rfl
  obtain ⟨lastAdjacent, lastText⟩ := adjacent_ofLine_last
    (spanned last (List.mem_append_right _ (List.mem_singleton_self last)))
    (by rw [terminator]; split <;> decide)
  refine ⟨last.line.terminator, last.line.stop, terminator, meets, ?_, ?_⟩
  · rw [List.map_append, List.map_map] at adjacent
    obtain ⟨middle, front, rfl, -⟩ := adjacent.exists_middle
    have cut := Fragment.Adjacent.flatMap front fun line member => (earlier line member).1
    rw [whole, List.flatMap_append, List.map_append, List.map_flatMap, List.flatMap_singleton]
    exact cut.append lastAdjacent
  · have texts : textOf (lines.flatMap fun line => (ofLine line).tokens) =
        lines.flatMap fun line => line.line.source := by
      rw [textOf, List.flatMap_assoc]
      exact List.flatMap_congr fun line member => (earlier line member).2
    rw [whole, List.flatMap_append, textOf_append, texts, List.flatMap_singleton, lastText, ← source,
      List.flatMap_append, List.flatMap_map, List.flatMap_singleton, List.append_assoc,
      CommentLine.source]

/-- Every token of a line is a stretch of the line. -/
private theorem occursIn_of_mem_ofLine {text : List Char} {line : SpannedLine}
    (spanned : line.line.content.IsSpannedBy line.spans) (occurs : line.line.fragment.OccursIn text)
    {token : TokenKind × Fragment} (member : token ∈ (ofLine line).tokens) :
    token.2.OccursIn text := by
  rw [tokens_ofLine] at member
  simp only [List.mem_append, List.mem_flatMap] at member
  rcases member with (margin | ⟨span, among, content⟩) | ending
  · rw [mem_ofFragment margin]
    exact CommentLine.margin_occursIn occurs
  · rw [mem_ofFragment content]
    exact spanned.slice_occursIn (CommentLine.content_occursIn occurs) among
  · rw [lineBreak] at ending
    split at ending
    · obtain rfl : token = (.lineBreak, ⟨line.line.stop, line.line.terminator⟩) := by
        simpa [tokensOfAll, tokens] using ending
      exact CommentLine.terminator_occursIn occurs
    · simp [tokensOfAll] at ending

private theorem occursIn_of_mem_ofAnalysis (reading : analysis.IsReadingOf settings block)
    {token : TokenKind × Fragment} (member : token ∈ (ofAnalysis analysis).tokens) :
    token.2.OccursIn block.text := by
  rw [tokens_ofAnalysis] at member
  simp only [List.mem_append, List.mem_flatMap] at member
  rcases member with ((opens | ⟨line, among, inside⟩) | closes) | behind
  · rw [mem_ofFragment opens]
    exact reading.source ▸ DocComment.openerFragment_occursIn _
  · exact occursIn_of_mem_ofLine (reading.spanned line among) (reading.fragment_occursIn among)
      inside
  · rw [mem_ofFragment closes]
    exact reading.source ▸ DocComment.closerFragment_occursIn _
  · rw [mem_ofFragment behind]
    exact reading.source ▸ DocComment.trailingFragment_occursIn _

/-- The text of the tree is that of the lines between the delimiters. -/
theorem text_ofAnalysis (analysis : Analysis) :
    (ofAnalysis analysis).text = opener ++
      textOf (analysis.lines.flatMap fun line => (ofLine line).tokens) ++ closer ++
        analysis.comment.trailing := by
  change textOf (ofAnalysis analysis).tokens = _
  rw [tokens_ofAnalysis, textOf_append, textOf_append, textOf_append, textOf_ofFragment,
    textOf_ofFragment, textOf_ofFragment]
  rfl

/-- The tokens of the tree are in place exactly if those of the lines reach up to the closer. -/
theorem place_ofAnalysis_iff {reach : Nat}
    (adjacent : Fragment.Adjacent (width opener) reach
      ((analysis.lines.flatMap fun line => (ofLine line).tokens).map Prod.snd)) :
    ((ofAnalysis analysis).place 0).tokens = (ofAnalysis analysis).tokens.map inPlace ↔
      reach = analysis.comment.closerFragment.start := by
  let front := (TokenKind.opener, DocComment.openerFragment) ::
    analysis.lines.flatMap fun line => (ofLine line).tokens
  let back := tokensOfAll (ofFragment .trailing analysis.comment.trailingFragment)
  have tokens_eq : (ofAnalysis analysis).tokens =
      front ++ (.closer, analysis.comment.closerFragment) :: back := by
    rw [tokens_ofAnalysis, List.append_assoc]
    rfl
  have before : Fragment.Adjacent 0 reach (front.map Prod.snd) := ⟨rfl, adjacent⟩
  have behind : Fragment.Adjacent analysis.comment.closerFragment.start
      analysis.comment.trailingFragment.stop
      (((TokenKind.closer, analysis.comment.closerFragment) :: back).map Prod.snd) :=
    ⟨rfl, adjacent_ofFragment .trailing analysis.comment.trailingFragment⟩
  rw [(place_eq 0 _).2, tokens_eq]
  exact layOut_append_iff before behind

/-- The tree of a comment has the text of the comment, and its tokens have the ranges that they were
taken from, exactly if the body does not end with a carriage return. If it does, the tree lacks that
carriage return, and nothing else. -/
theorem lossless_iff (settings : Settings) (block : Fragment) {analysis : Analysis}
    (analysed : Analysis.ofBlock settings block = .ok analysis) :
    (∀ token ∈ (ofAnalysis analysis).tokens, token.2.OccursIn block.text) ∧
    (ofAnalysis analysis).text =
      opener ++ (if analysis.comment.body.getLast? = some '\r' then analysis.comment.body.dropLast
        else analysis.comment.body) ++ closer ++ analysis.comment.trailing ∧
    ((ofAnalysis analysis).text = block.text ↔ analysis.comment.body.getLast? ≠ some '\r') ∧
    (((ofAnalysis analysis).place 0).tokens = (ofAnalysis analysis).tokens.map inPlace ↔
      analysis.comment.body.getLast? ≠ some '\r') := by
  have reading := Analysis.isReadingOf_of_ofBlock analysed
  obtain ⟨carriage, reach, shape, meets, adjacent, body⟩ := adjacent_lines reading
  have whole : carriage = [] ↔ analysis.comment.body.getLast? ≠ some '\r' := by
    rw [shape]
    split <;> simp_all
  refine ⟨fun token => occursIn_of_mem_ofAnalysis reading, ?_, ?_, ?_⟩
  · have kept : textOf (analysis.lines.flatMap fun line => (ofLine line).tokens) =
        if analysis.comment.body.getLast? = some '\r' then analysis.comment.body.dropLast
          else analysis.comment.body := by
      split at shape
      · next ends => rw [if_pos ends, ← body, shape, List.dropLast_concat]
      · next ends => rw [if_neg ends, ← body, shape, List.append_nil]
    rw [text_ofAnalysis, kept]
  · rw [text_ofAnalysis, ← whole, ← reading.source, DocComment.source, ← body]
    simp
  · rw [place_ofAnalysis_iff adjacent, ← whole, ← width_eq_zero]
    omega

/-- A carriage return before the closer is in no token, and the closer moves into its place. -/
theorem lossless_iff_stray_return :
    ∃ analysis, Analysis.ofBlock .standard ⟨0, "/** a\r*/".toList⟩ = .ok analysis ∧
      (ofAnalysis analysis).text = "/** a*/".toList ∧
      (TokenKind.closer, (⟨5, 7⟩ : ByteRange), closer) ∈ ((ofAnalysis analysis).place 0).tokens ∧
      analysis.comment.closerFragment.range = ⟨6, 8⟩ ∧
      (ofAnalysis analysis).text ≠ "/** a\r*/".toList ∧
      ((ofAnalysis analysis).place 0).tokens ≠ (ofAnalysis analysis).tokens.map inPlace := by
  have analysed : Analysis.ofBlock .standard ⟨0, "/** a\r*/".toList⟩ = .ok
      { offset := 0
        comment := ⟨" a\r".toList, []⟩
        lines := [⟨⟨3, [' '], ['a'], ['\r']⟩, [⟨.prose, ⟨4, 5⟩, false⟩]⟩]
        unfinished := []
        passages := [⟨0, 0, .description, ['a'], ⟨[⟨4, 1⟩]⟩⟩] } := by decide +kernel
  obtain ⟨-, text, spelled, placed⟩ := lossless_iff .standard _ analysed
  refine ⟨_, analysed, text, ?_, ?_, ?_, ?_⟩
  · decide +kernel
  · decide +kernel
  · intro same
    exact spelled.mp same (by decide +kernel)
  · intro same
    exact placed.mp same (by decide +kernel)

end SyntaxTree

end CommentProse
