import CommentProse.Proofs.Checked.Text
import CommentProse.Proofs.Markup.Reading

/-! # Checked reading of markup

The steps in which a line is read, computed as positions in the content of the line with checked
operations. What a step takes is sliced from the text of the comment between offsets that it adds up
from widths of what it scanned; so a width that is off by one would leave the step without a result,
as would a depth that is counted down from zero. A step that does not go forward ends the reading
without a result, too. Each function gives what the unchecked one gives.
-/

namespace CommentProse

namespace Checked

/-- The outcome of one step of reading. -/
structure Advance where
  pieces : List Piece
  markup : OpenMarkup
  /-- The position in the content of the line from which on it is still to be read. -/
  next : Nat

/-- The outcome of a step at a position of the content. -/
def Advance.ofStep (place : Nat) (advance : CommentProse.Advance) : Advance :=
  ⟨advance.pieces, advance.markup, place + width advance.taken⟩

theorem Advance.ofStep_single (place : Nat) (piece : Piece) (markup : OpenMarkup)
    (rest : List Char) :
    ofStep place ⟨[piece], markup, rest⟩ = ⟨[piece], markup, place + width piece.text⟩ := by
  simp [ofStep, CommentProse.Advance.taken]

theorem Advance.ofStep_pair (place : Nat) (first second : Piece) (markup : OpenMarkup)
    (rest : List Char) :
    ofStep place ⟨[first, second], markup, rest⟩ =
      ⟨[first, second], markup, place + width first.text + width second.text⟩ := by
  simp [ofStep, CommentProse.Advance.taken, Nat.add_assoc]

/-- The text from `start` to `stop` as a piece. -/
def piece? (text : List Char) (role : Role) (divides : Bool) (start stop : Nat) : Option Piece := do
  let part ← slice? text ⟨start, stop⟩
  return ⟨role, divides, part⟩

theorem piece?_part {text : List Char} {fragment : Fragment} (occurs : fragment.OccursIn text)
    (left middle right : List Char) (parts : fragment.text = left ++ middle ++ right)
    {start stop : Nat} (first : fragment.start + width left = start)
    (last : start + width middle = stop) (role : Role) (divides : Bool) :
    piece? text role divides start stop = some ⟨role, divides, middle⟩ := by
  rw [piece?, slice?_part occurs left middle right parts first last]
  rfl

/-! ### Tags -/

/-- The verbatim element that is open after a tag of this form. -/
def elementAfter? (settings : Settings) (tag : OpenTag) (selfClosing : Bool)
    (current : Option OpenElement) : Option (Option OpenElement) :=
  match tag.form with
  | .element name closing =>
    if settings.isVerbatimElement name then
      match current with
      | some element =>
        if element.name = name then
          if closing then
            if element.depth = 0 then some none
            else do
              let depth ← minus? element.depth 1
              return some { element with depth }
          else if selfClosing then some element
          else some (some { element with depth := element.depth + 1 })
        else some element
      | none => some (if closing || selfClosing then none else some ⟨tag.start, name, 0⟩)
    else some current
  | _ => some current

theorem elementAfter?_eq (settings : Settings) (tag : OpenTag) (selfClosing : Bool)
    (current : Option OpenElement) :
    elementAfter? settings tag selfClosing current =
      some (OpenElement.after settings tag selfClosing current) := by
  rw [elementAfter?, OpenElement.after]
  cases tag.form with
  | comment => rfl
  | declaration => rfl
  | element name closing =>
    dsimp only
    by_cases verbatim : settings.isVerbatimElement name = true
    · rw [if_pos verbatim, if_pos verbatim]
      cases current with
      | none => rfl
      | some element =>
        dsimp only
        by_cases deep : element.depth = 0
        · simp only [deep, apply_ite some, if_true]
        · simp only [deep, minus?_of_le (Nat.one_le_iff_ne_zero.mpr deep), apply_ite some, if_false,
            Option.bind_eq_bind, Option.bind_some, Option.pure_def]
    · rw [if_neg verbatim, if_neg verbatim]

/-- Reads on in a tag with `rest` at the position `place` of a content of `size` bytes. -/
def stepTag? (settings : Settings) (text : List Char) (base size place : Nat) (markup : OpenMarkup)
    (tag : OpenTag) (rest : List Char) : Option Advance :=
  match tag.close? rest with
  | some (taken, _) => do
    let length := width taken
    let inner ← minus? length 1
    let front ← upTo? rest inner
    let piece ← piece? text .markup tag.divides (base + place) (base + place + length)
    let verbatim ← elementAfter? settings tag ((trimEnd front).getLast? == some '/') markup.verbatim
    return ⟨[piece], { markup with tag := none, verbatim }, place + length⟩
  | none => do
    let piece ← piece? text .markup tag.divides (base + place) (base + size)
    return ⟨[piece], { markup with tag := some (tag.carry rest) }, size⟩

/-- The last character of a tag is its `>`. -/
private theorem exists_eq_of_splitEnd? {quote : Option Char} {text taken rest : List Char}
    (split : OpenTag.splitEnd? quote text = some (taken, rest)) :
    ∃ front, taken = front ++ ['>'] := by
  induction text generalizing quote taken with
  | nil => simp [OpenTag.splitEnd?] at split
  | cons c text ih =>
    rw [OpenTag.splitEnd?] at split
    split at split
    · next ends =>
      cases split
      exact ⟨[], by rw [ends.2]; rfl⟩
    · obtain ⟨⟨front, back⟩, found, same⟩ := Option.map_eq_some_iff.mp split
      cases same
      obtain ⟨front, rfl⟩ := ih found
      exact ⟨c :: front, rfl⟩

private theorem exists_eq_of_close? {tag : OpenTag} {text taken rest : List Char}
    (closed : tag.close? text = some (taken, rest)) : ∃ front, taken = front ++ ['>'] := by
  rw [OpenTag.close?] at closed
  split at closed
  · obtain ⟨⟨front, back⟩, found, same⟩ := Option.map_eq_some_iff.mp closed
    obtain ⟨behind, rfl⟩ := List.isPrefixOf_iff_prefix.mp (isPrefixOf_of_splitBefore? found)
    cases same
    exact ⟨front ++ ['-', '-'], by simp⟩
  · exact exists_eq_of_splitEnd? closed

variable {text : List Char} {base size place : Nat}

theorem stepTag?_eq (settings : Settings) (markup : OpenMarkup) (tag : OpenTag) {rest : List Char}
    (occurs : (Fragment.mk (base + place) rest).OccursIn text) (ends : place + width rest = size) :
    stepTag? settings text base size place markup tag rest =
      some (.ofStep place (markup.stepTag settings tag rest)) := by
  rw [stepTag?, OpenMarkup.stepTag]
  cases closed : tag.close? rest with
  | some halves =>
    obtain ⟨taken, behind⟩ := halves
    have whole := OpenTag.append_of_close? closed
    obtain ⟨front, rfl⟩ := exists_eq_of_close? closed
    -- One byte less than what is taken is a boundary, for the `>` is a single byte.
    have inner : minus? (width (front ++ ['>'])) 1 = some (width front) := by
      rw [width_append]
      exact minus?_add_right _ _
    have frontThere : upTo? rest (width front) = some front := by
      rw [← whole, List.append_assoc, upTo?_append]
    have pieceThere : piece? text .markup tag.divides (base + place)
        (base + place + width (front ++ ['>'])) = some ⟨.markup, tag.divides, front ++ ['>']⟩ :=
      piece?_part occurs [] _ behind whole.symm rfl rfl _ _
    simp only [inner, frontThere, pieceThere, elementAfter?_eq, Option.bind_eq_bind,
      Option.bind_some, Advance.ofStep_single, OpenTag.isSelfClosing, List.dropLast_concat,
      Option.pure_def]
  | none =>
    have pieceThere : piece? text .markup tag.divides (base + place) (base + size) =
        some ⟨.markup, tag.divides, rest⟩ :=
      piece?_part occurs [] rest [] (by simp) rfl (by simp [← ends, Nat.add_assoc]) _ _
    simp only [pieceThere, Option.bind_eq_bind, Option.bind_some, Advance.ofStep_single, ends,
      Option.pure_def]

/-! ### References -/

/-- The number of open braces after one more character of an excluded body. -/
def depthAfter? (c : Char) (depth : Nat) : Option Nat :=
  if c = '{' then some (depth + 1) else if c = '}' then minus? depth 1 else some depth

/-- The width of what is taken of an excluded body, whether the brace that closes it follows, and
the depth reached. -/
def excluded? (depth : Nat) : List Char → Option (Nat × Bool × Nat)
  | [] => some (0, false, depth)
  | c :: text =>
    if c = '}' ∧ depth = 0 then some (0, true, depth)
    else do
      let inner ← depthAfter? c depth
      let (length, closes, reached) ← excluded? inner text
      return (c.utf8Size + length, closes, reached)

private theorem excluded?_eq (depth : Nat) (text : List Char) :
    excluded? depth text = some (width (OpenReference.splitExcluded depth text).1,
      !(OpenReference.splitExcluded depth text).2.1.isEmpty,
      (OpenReference.splitExcluded depth text).2.2) := by
  induction text generalizing depth with
  | nil => rfl
  | cons c text ih =>
    rw [excluded?, OpenReference.splitExcluded]
    by_cases closes : c = '}' ∧ depth = 0
    · rw [if_pos closes, if_pos closes]
      rfl
    · rw [if_neg closes, if_neg closes]
      have inner : depthAfter? c depth =
          some (if c = '{' then depth + 1 else if c = '}' then depth - 1 else depth) := by
        by_cases brace : c = '}'
        · have deep : depth ≠ 0 := fun zero => closes ⟨brace, zero⟩
          simp only [depthAfter?, minus?_of_le (Nat.one_le_iff_ne_zero.mpr deep), apply_ite some]
        · simp only [depthAfter?, brace, if_false, apply_ite some]
      simp only [inner, ih, Option.bind_eq_bind, Option.bind_some, width_cons, Option.pure_def]

/-- The first character that is left of an excluded body is the brace that closes it. -/
private theorem head?_splitExcluded (depth : Nat) (text : List Char) :
    ∀ c ∈ (OpenReference.splitExcluded depth text).2.1.head?, c = '}' := by
  induction text generalizing depth with
  | nil => simp [OpenReference.splitExcluded]
  | cons c text ih =>
    rw [OpenReference.splitExcluded]
    split
    · next closes => simpa using closes.1
    · exact ih _

/-- Reads on in the excluded body of the innermost reference. -/
def stepExcluded? (settings : Settings) (text : List Char) (base place : Nat) (markup : OpenMarkup)
    (reference : OpenReference) (outer : List OpenReference) (rest : List Char) :
    Option Advance := do
  let (length, closes, depth) ← excluded? reference.depth rest
  let next := place + length
  let body ← piece? text .argument false (base + place) (base + next)
  if closes then
    let brace ← piece? text .markup settings.referencesDivide (base + next) (base + next + 1)
    return ⟨[body, brace], { markup with references := outer }, next + 1⟩
  else return ⟨[body], { markup with references := { reference with depth } :: outer }, next⟩

theorem stepExcluded?_eq (settings : Settings) (markup : OpenMarkup) (reference : OpenReference)
    (outer : List OpenReference) {rest : List Char}
    (occurs : (Fragment.mk (base + place) rest).OccursIn text) :
    stepExcluded? settings text base place markup reference outer rest =
      some (.ofStep place (markup.stepExcluded settings reference outer rest)) := by
  have whole := OpenReference.splitExcluded_append reference.depth rest
  have closing := head?_splitExcluded reference.depth rest
  have single : '}'.utf8Size = 1 := rfl
  rw [stepExcluded?, OpenMarkup.stepExcluded, excluded?_eq]
  generalize OpenReference.splitExcluded reference.depth rest = halves at whole closing ⊢
  obtain ⟨taken, left, depth⟩ := halves
  dsimp only at whole closing ⊢
  have bodyThere : piece? text .argument false (base + place) (base + (place + width taken)) =
      some ⟨.argument, false, taken⟩ :=
    piece?_part occurs [] taken left whole.symm rfl (by simp [Nat.add_assoc]) _ _
  cases left with
  | nil =>
    simp only [Option.bind_eq_bind, Option.bind_some, bodyThere, List.isEmpty_nil, Bool.not_true,
      Bool.false_eq_true, if_false, Option.pure_def, Advance.ofStep_single]
  | cons c left =>
    obtain rfl := closing c rfl
    have braceThere : piece? text .markup settings.referencesDivide
        (base + (place + width taken)) (base + (place + width taken) + 1) =
          some ⟨.markup, settings.referencesDivide, ['}']⟩ :=
      piece?_part occurs taken ['}'] left (by simp [← whole]) (by simp [Nat.add_assoc])
        (by simp [single]) _ _
    simp only [Option.bind_eq_bind, Option.bind_some, bodyThere, List.isEmpty_cons, Bool.not_false,
      if_true, braceThere, Option.pure_def, Advance.ofStep_pair]
    rfl

/-- The offset at which a target ends, if it does. -/
def targetEnd? (parentheses : Nat) : List Char → Option Nat
  | [] => none
  | c :: text =>
    if c = '{' ∨ c = '}' ∨ (isBlank c ∧ parentheses = 0) then some 0
    else
      let inner := if c = '(' then parentheses + 1 else if c = ')' then parentheses - 1
        else parentheses
      (targetEnd? inner text).map (c.utf8Size + ·)

private theorem targetEnd?_getD (parentheses : Nat) (text : List Char) :
    (targetEnd? parentheses text).getD (width text) =
      width (OpenReference.splitTarget parentheses text).1 := by
  induction text generalizing parentheses with
  | nil => rfl
  | cons c text ih =>
    rw [targetEnd?, OpenReference.splitTarget]
    split
    · rfl
    · dsimp only
      generalize (if c = '(' then parentheses + 1 else if c = ')' then parentheses - 1
        else parentheses) = inner
      have later := ih inner
      cases ends : targetEnd? inner text <;> simp_all

/-- The width of the blanks before a target, and that of the target. -/
def target? (rest : List Char) : Option (Nat × Nat) := do
  let blanks ← minus? (width rest) (width (rest.dropWhile isBlank))
  let targetOn ← from? rest blanks
  let limit ← minus? (width rest) blanks
  return (blanks, (targetEnd? 0 targetOn).getD limit)

private theorem target?_eq (rest : List Char) :
    target? rest = some (width (rest.takeWhile isBlank),
      width (OpenReference.splitTarget 0 (rest.dropWhile isBlank)).1) := by
  simp only [target?, minus?_dropWhile, from?_takeWhile, minus?_takeWhile, targetEnd?_getD,
    Option.bind_eq_bind, Option.bind_some, Option.pure_def]

/-! ### Running text -/

/-- Reads plain text from `c` up to the next character that may be markup. -/
def stepText? (text : List Char) (base place : Nat) (markup : OpenMarkup) (c : Char)
    (behind : List Char) : Option Advance := do
  let role := if markup.verbatim.isSome then .markup else .prose
  let length := c.utf8Size + (offsetWhere? OpenMarkup.isMarkupChar behind).getD (width behind)
  let piece ← piece? text role false (base + place) (base + place + length)
  return ⟨[piece], markup, place + length⟩

theorem stepText?_eq (markup : OpenMarkup) {c : Char} {behind : List Char}
    (occurs : (Fragment.mk (base + place) (c :: behind)).OccursIn text) :
    stepText? text base place markup c behind =
      some (.ofStep place (markup.stepText c behind)) := by
  have plain := List.takeWhile_append_dropWhile (p := (!OpenMarkup.isMarkupChar ·)) (l := behind)
  have pieceThere := piece?_part occurs [] (c :: behind.takeWhile (!OpenMarkup.isMarkupChar ·))
    (behind.dropWhile (!OpenMarkup.isMarkupChar ·)) (by simp [plain]) rfl rfl
    (if markup.verbatim.isSome then .markup else .prose) false
  simp only [stepText?, OpenMarkup.stepText, offsetWhere?_getD, ← width_cons,
    Advance.ofStep_single, Option.bind_eq_bind, Option.pure_def]
  simp only [width_nil, Nat.add_zero] at pieceThere
  rw [pieceThere, Option.bind_some]

/-- The form of the tag of an element with its name at the start of a text, and the width of its
start when `before` bytes stand before the name. -/
def element? (before : Nat) (closing : Bool) (nameOn : List Char) :
    Option (Option (TagForm × Nat)) :=
  if (nameOn.head?.map Char.isAlpha).getD false then do
    let length := (offsetWhere? (fun c => !(c.isAlphanum || c == '-')) nameOn).getD (width nameOn)
    let name ← upTo? nameOn length
    return some (.element (String.ofList (name.map Char.toLower)) closing, before + length)
  else some none

/-- The form of the tag that a `<` before this text opens, and the width of its start. -/
def tagStart? (behind : List Char) : Option (Option (TagForm × Nat)) :=
  match behind with
  | '!' :: '-' :: '-' :: _ => some (some (.comment, 4))
  | '!' :: _ => some (some (.declaration, 2))
  | '/' :: nameOn => element? 2 true nameOn
  | nameOn => element? 1 false nameOn

private theorem element?_eq (marker : List Char) (closing : Bool) (nameOn : List Char) :
    element? (1 + width marker) closing nameOn =
      some ((TagForm.element? marker closing nameOn).map
        fun (form, taken, _) => (form, 1 + width taken)) := by
  have length := offsetWhere?_getD (fun c => !(c.isAlphanum || c == '-')) nameOn
  simp only [Bool.not_not] at length
  rw [element?, TagForm.element?]
  dsimp only
  split
  · simp only [length, upTo?_takeWhile, Option.bind_eq_bind, Option.bind_some, Option.map_some,
      width_append, Nat.add_assoc, Option.pure_def]
  · rfl

private theorem tagStart?_eq (behind : List Char) :
    tagStart? behind = some ((TagForm.start? behind).map
      fun (form, taken, _) => (form, 1 + width taken)) := by
  fun_cases TagForm.start? behind with
  | case1 => rfl
  | case2 rest notComment =>
    rw [tagStart?]
    · rfl
    · exact notComment
  | case3 => exact element?_eq ['/'] true _
  | case4 _ notComment notDeclaration notClosing =>
    rw [tagStart?]
    · exact element?_eq [] false behind
    · exact notComment
    · exact notDeclaration
    · exact notClosing

/-- Reads the `<` at a position: the start of a tag, or text. -/
def stepLess? (settings : Settings) (text : List Char) (base place : Nat) (markup : OpenMarkup)
    (behind : List Char) : Option Advance := do
  match ← tagStart? behind with
  | some (form, length) =>
    let divides := form.divides settings
    let piece ← piece? text .markup divides (base + place) (base + place + length)
    return ⟨[piece], { markup with tag := some ⟨base + place, form, .none, divides⟩ },
      place + length⟩
  | none => stepText? text base place markup '<' behind

theorem stepLess?_eq (settings : Settings) (markup : OpenMarkup) {behind : List Char}
    (occurs : (Fragment.mk (base + place) ('<' :: behind)).OccursIn text) :
    stepLess? settings text base place markup behind =
      some (.ofStep place (markup.stepLess settings (base + place) behind)) := by
  rw [stepLess?, OpenMarkup.stepLess, tagStart?_eq]
  cases starts : TagForm.start? behind with
  | none => exact stepText?_eq markup occurs
  | some start =>
    obtain ⟨form, taken, rest⟩ := start
    have whole := TagForm.append_of_start? starts
    have pieceThere : piece? text .markup (form.divides settings) (base + place)
        (base + place + (1 + width taken)) = some ⟨.markup, form.divides settings, '<' :: taken⟩ :=
      piece?_part occurs [] ('<' :: taken) rest (by simp [whole]) rfl rfl _ _
    simp only [Option.map_some, Option.bind_eq_bind, Option.bind_some, pieceThere, Option.pure_def,
      Advance.ofStep_single, width_cons]
    rfl

/-- The name of the reference that a `{` before this text opens. -/
def referenceName? (behind : List Char) : Option (Option (List Char)) :=
  match behind with
  | '@' :: nameOn => do
    let name ← upTo? nameOn ((offsetWhere? (!isNameChar ·) nameOn).getD (width nameOn))
    return if name.isEmpty then none else some name
  | _ => some none

private theorem referenceName?_eq (behind : List Char) :
    referenceName? behind = some ((OpenReference.name? behind).map Prod.fst) := by
  cases behind with
  | nil => rfl
  | cons c nameOn =>
    by_cases sign : c = '@'
    · subst sign
      have length := offsetWhere?_getD (!isNameChar ·) nameOn
      simp only [Bool.not_not] at length
      simp only [referenceName?, OpenReference.name?, length, upTo?_takeWhile, Option.bind_eq_bind,
        Option.bind_some, Option.pure_def]
      split <;> rfl
    · simp [referenceName?, OpenReference.name?, sign]

/-- Reads the `{` at a position: the start of a reference, or a plain brace. -/
def stepOpen? (settings : Settings) (text : List Char) (base place : Nat) (markup : OpenMarkup)
    (behind : List Char) : Option Advance := do
  match ← referenceName? behind with
  | some name =>
    let tag := String.ofList name
    let nameStart := place + 2
    let next := nameStart + width name
    let sign ← piece? text .markup settings.referencesDivide (base + place) (base + nameStart)
    let named ← piece? text .tagName false (base + nameStart) (base + next)
    return ⟨[sign, named],
      { markup with references :=
          ⟨base + place, tag, 0, OpenMarkup.bodyMode settings tag⟩ :: markup.references },
      next⟩
  | none => stepText? text base place (markup.withDepth (· + 1)) '{' behind

/-- Reads a `}`: the end of the innermost reference if its plain braces are closed, or text. -/
def stepClose? (settings : Settings) (text : List Char) (base place : Nat) (markup : OpenMarkup)
    (behind : List Char) : Option Advance :=
  match markup.references with
  | [] => stepText? text base place markup '}' behind
  | reference :: outer =>
    if reference.depth = 0 then do
      let brace ← piece? text .markup settings.referencesDivide (base + place) (base + place + 1)
      return ⟨[brace], { markup with references := outer }, place + 1⟩
    else do
      let depth ← minus? reference.depth 1
      stepText? text base place { markup with references := { reference with depth } :: outer } '}'
        behind

theorem stepOpen?_eq (settings : Settings) (markup : OpenMarkup) {behind : List Char}
    (occurs : (Fragment.mk (base + place) ('{' :: behind)).OccursIn text) :
    stepOpen? settings text base place markup behind =
      some (.ofStep place (markup.stepOpen settings (base + place) behind)) := by
  rw [stepOpen?, OpenMarkup.stepOpen, referenceName?_eq]
  cases read : OpenReference.name? behind with
  | none => exact stepText?_eq _ occurs
  | some halves =>
    obtain ⟨name, rest⟩ := halves
    have whole := OpenReference.append_of_name? read
    have sign : width ['{', '@'] = 2 := rfl
    have signThere : piece? text .markup settings.referencesDivide (base + place)
        (base + (place + 2)) = some ⟨.markup, settings.referencesDivide, ['{', '@']⟩ :=
      piece?_part occurs [] ['{', '@'] (name ++ rest) (by simp [← whole]) rfl rfl _ _
    have nameThere : piece? text .tagName false (base + (place + 2))
        (base + (place + 2 + width name)) = some ⟨.tagName, false, name⟩ :=
      piece?_part occurs ['{', '@'] name rest (by simp [← whole]) rfl
        (by simp only [sign, Nat.add_assoc]) _ _
    simp only [Option.map_some, Option.bind_eq_bind, Option.bind_some, signThere, nameThere,
      Option.pure_def, Advance.ofStep_pair, sign]

theorem stepClose?_eq (settings : Settings) (markup : OpenMarkup) {behind : List Char}
    (occurs : (Fragment.mk (base + place) ('}' :: behind)).OccursIn text) :
    stepClose? settings text base place markup behind =
      some (.ofStep place (markup.stepClose settings behind)) := by
  rw [stepClose?, OpenMarkup.stepClose]
  cases references : markup.references with
  | nil => exact stepText?_eq _ occurs
  | cons reference outer =>
    dsimp only
    split
    · have braceThere : piece? text .markup settings.referencesDivide (base + place)
          (base + place + 1) = some ⟨.markup, settings.referencesDivide, ['}']⟩ :=
        piece?_part occurs [] ['}'] behind rfl rfl rfl _ _
      simp only [braceThere, Option.bind_eq_bind, Option.bind_some, Option.pure_def]
      rfl
    · next deep =>
      rw [minus?_of_le (Nat.one_le_iff_ne_zero.mpr deep), OpenMarkup.withDepth, references]
      exact stepText?_eq _ occurs

/-- Reads running text. -/
def stepRunning? (settings : Settings) (text : List Char) (base place : Nat) (markup : OpenMarkup)
    (c : Char) (behind : List Char) : Option Advance :=
  if c = '<' then stepLess? settings text base place markup behind
  else if c = '{' then stepOpen? settings text base place markup behind
  else if c = '}' then stepClose? settings text base place markup behind
  else stepText? text base place markup c behind

theorem stepRunning?_eq (settings : Settings) (markup : OpenMarkup) {c : Char} {behind : List Char}
    (occurs : (Fragment.mk (base + place) (c :: behind)).OccursIn text) :
    stepRunning? settings text base place markup c behind =
      some (.ofStep place (markup.stepRunning settings (base + place) c behind)) := by
  rw [stepRunning?, OpenMarkup.stepRunning]
  split
  · next less => exact stepLess?_eq settings markup (less ▸ occurs)
  · split
    · next opens => exact stepOpen?_eq settings markup (opens ▸ occurs)
    · split
      · next closes => exact stepClose?_eq settings markup (closes ▸ occurs)
      · exact stepText?_eq markup occurs

/-! ### Whole lines -/

/-- Reads on to the target of the innermost reference, or reads running text where a brace stands
in its place. -/
def stepTarget? (settings : Settings) (text : List Char) (base place : Nat) (markup : OpenMarkup)
    (reference : OpenReference) (outer : List OpenReference) (c : Char) (behind : List Char) :
    Option Advance := do
  let (blanks, length) ← target? (c :: behind)
  let mode := if 0 < length ∨ c = '{' ∨ c = '}' then .running else .target
  let markup := { markup with references := { reference with mode } :: outer }
  if 0 < blanks + length then
    let piece ← piece? text .argument false (base + place) (base + place + (blanks + length))
    return ⟨[piece], markup, place + (blanks + length)⟩
  else stepRunning? settings text base place markup c behind

/-- Reads on with `c :: behind` at the position `place` of a content of `size` bytes. -/
def step? (settings : Settings) (text : List Char) (base size place : Nat) (markup : OpenMarkup)
    (c : Char) (behind : List Char) : Option Advance :=
  match markup.tag, markup.references with
  | some tag, _ => stepTag? settings text base size place markup tag (c :: behind)
  | none, reference :: outer =>
    match reference.mode with
    | .excluded => stepExcluded? settings text base place markup reference outer (c :: behind)
    | .target => stepTarget? settings text base place markup reference outer c behind
    | .running => stepRunning? settings text base place markup c behind
  | none, [] => stepRunning? settings text base place markup c behind

/-- Where a brace follows there is no target. -/
private theorem target?_of_brace {c : Char} (brace : c = '{' ∨ c = '}') (behind : List Char) :
    target? (c :: behind) = some (0, 0) := by
  have visible : isBlank c = false := by rcases brace with rfl | rfl <;> decide
  have noBlanks : (c :: behind).takeWhile isBlank = [] := by simp [visible]
  have noTarget : (OpenReference.splitTarget 0 ((c :: behind).dropWhile isBlank)).1 = [] := by
    rw [List.dropWhile_cons_of_neg (by simp [visible]), OpenReference.splitTarget,
      if_pos (by tauto)]
  rw [target?_eq, noBlanks, noTarget]
  rfl

/-- Where no brace follows there are blanks or a target. -/
private theorem target_ne_nil {c : Char} (noBrace : ¬(c = '{' ∨ c = '}')) (behind : List Char) :
    (c :: behind).takeWhile isBlank ++
      (OpenReference.splitTarget 0 ((c :: behind).dropWhile isBlank)).1 ≠ [] := by
  cases blank : isBlank c with
  | true => simp [blank]
  | false => simp [blank, OpenReference.splitTarget, noBrace]

theorem stepTarget?_eq (settings : Settings) (markup : OpenMarkup) (reference : OpenReference)
    (outer : List OpenReference) {c : Char} {behind : List Char}
    (occurs : (Fragment.mk (base + place) (c :: behind)).OccursIn text) :
    stepTarget? settings text base place markup reference outer c behind =
      some (.ofStep place (if c = '{' ∨ c = '}' then
        { markup with references := { reference with mode := .running } :: outer }.stepRunning
          settings (base + place) c behind
        else markup.stepTarget reference outer (c :: behind))) := by
  rw [stepTarget?]
  by_cases brace : c = '{' ∨ c = '}'
  · simp only [target?_of_brace brace, brace, Option.bind_eq_bind, Option.bind_some, Nat.add_zero,
      Nat.lt_irrefl, if_false, false_or, if_true]
    exact stepRunning?_eq settings _ occurs
  · have parts := OpenReference.splitTarget_append 0 ((c :: behind).dropWhile isBlank)
    have whole := List.takeWhile_append_dropWhile (p := isBlank) (l := c :: behind)
    have forward := target_ne_nil brace behind
    rw [target?_eq, OpenMarkup.stepTarget, if_neg brace]
    rw [← parts] at whole
    generalize (c :: behind).takeWhile isBlank = blanks at whole forward ⊢
    generalize OpenReference.splitTarget 0 ((c :: behind).dropWhile isBlank) = halves
      at whole forward ⊢
    obtain ⟨target, rest⟩ := halves
    dsimp only at whole forward ⊢
    have pieceThere : piece? text .argument false (base + place)
        (base + place + (width blanks + width target)) =
          some ⟨.argument, false, blanks ++ target⟩ :=
      piece?_part occurs [] (blanks ++ target) rest (by simp [← whole]) rfl
        (by simp [width_append]) _ _
    have positive : 0 < width blanks + width target := by
      rw [← width_append]
      exact Nat.pos_of_ne_zero (mt width_eq_zero.mp forward)
    have mode : (if 0 < width target ∨ c = '{' ∨ c = '}' then BodyMode.running else .target) =
        if target.isEmpty then .target else .running := by
      cases target with
      | nil => simp [brace]
      | cons d target =>
        rw [if_pos (.inl (Nat.add_pos_left d.utf8Size_pos _))]
        rfl
    simp only [Option.bind_eq_bind, Option.bind_some, positive, if_true, pieceThere, mode,
      Option.pure_def, Advance.ofStep_single, width_append]

theorem step?_eq (settings : Settings) (markup : OpenMarkup) {c : Char} {behind : List Char}
    (occurs : (Fragment.mk (base + place) (c :: behind)).OccursIn text)
    (ends : place + width (c :: behind) = size) :
    step? settings text base size place markup c behind =
      some (.ofStep place (markup.step settings (base + place) c behind)) := by
  rw [step?, OpenMarkup.step]
  cases noTag : markup.tag with
  | some tag => exact stepTag?_eq settings markup tag occurs ends
  | none =>
    cases markup.references with
    | nil => exact stepRunning?_eq settings markup occurs
    | cons reference outer =>
      dsimp only
      cases reference.mode with
      | excluded => exact stepExcluded?_eq settings markup reference outer occurs
      | target =>
        have step := stepTarget?_eq settings markup reference outer occurs
        rwa [noTag] at step
      | running => exact stepRunning?_eq settings markup occurs

/-- Reads the content of a line to its end from a position on: its pieces, and the markup that is
open then. -/
def read? (settings : Settings) (text line : List Char) (base : Nat) (markup : OpenMarkup)
    (place : Nat) : Option (List Piece × OpenMarkup) :=
  if _inside : place < width line then
    match from? line place with
    | none | some [] => none
    | some (c :: behind) =>
      match step? settings text base (width line) place markup c behind with
      | none => none
      | some advance =>
        if _forward : place < advance.next then do
          let (pieces, last) ← read? settings text line base advance.markup advance.next
          return (advance.pieces ++ pieces, last)
        else none
  else some ([], markup)
termination_by width line - place

theorem read?_eq (settings : Settings) (markup : OpenMarkup) (base : Nat) (front rest : List Char)
    (occurs : (Fragment.mk base (front ++ rest)).OccursIn text) :
    read? settings text (front ++ rest) base markup (width front) =
      some (markup.read settings (base + width front) rest) := by
  -- A step may take any number of characters, so the induction is on a bound of what is left.
  obtain ⟨length, bound⟩ : ∃ length, rest.length ≤ length := ⟨_, Nat.le_refl _⟩
  induction length generalizing markup front rest with
  | zero =>
    obtain rfl := List.eq_nil_of_length_eq_zero (Nat.le_zero.mp bound)
    rw [List.append_nil, read?, dif_neg (Nat.lt_irrefl _), OpenMarkup.read]
  | succ length ih =>
    cases rest with
    | nil => rw [List.append_nil, read?, dif_neg (Nat.lt_irrefl _), OpenMarkup.read]
    | cons c behind =>
      have shorter := OpenMarkup.length_step_lt settings markup (base + width front) c behind
      have whole := OpenMarkup.append_step settings markup (base + width front) c behind
      have taken := width_eq_zero.not.mpr
        (OpenMarkup.step_taken_ne_nil settings markup (base + width front) c behind)
      have step := @step?_eq text base (width (front ++ c :: behind)) (width front) settings markup
        c behind (occurs.part front (c :: behind) [] (by simp)) (width_append ..).symm
      rw [OpenMarkup.read]
      generalize markup.step settings (base + width front) c behind = advance
        at shorter whole taken step ⊢
      have later := ih advance.markup (front ++ advance.taken) advance.rest
        (by rwa [List.append_assoc, whole]) (by omega)
      rw [List.append_assoc, whole, width_append, ← Nat.add_assoc] at later
      have inside : width front < width (front ++ c :: behind) := by
        rw [width_append, width_cons]
        have := c.utf8Size_pos
        omega
      have forward : width front < width front + width advance.taken := by omega
      rw [read?, dif_pos inside, from?_append]
      dsimp only
      rw [step]
      dsimp only [Advance.ofStep]
      rw [dif_pos forward, later]
      rfl

end Checked

end CommentProse
