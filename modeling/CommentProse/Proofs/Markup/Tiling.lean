import CommentProse.Markup.Span
import CommentProse.Proofs.Text.Places
import Mathlib.Data.List.Chain

/-! # Spans tile what was read

Spans tile a range when they cover it in order without gap, overlap or empty span. The form that
survives every operation is stronger: spans are pieces of text laid out one after the other, and the
pieces make up the text (`Fragment.IsSpannedBy`). Joining pieces keeps it and leaves no two
neighbours alike; relabelling keeps it because the ends of a range that is relabelled are boundaries
of the text, so that no character is cut.
-/

namespace CommentProse

namespace Piece

/-- Neighbours that are not of equal kind. -/
def Differ (piece next : Piece) : Prop := ¬(piece.role = next.role ∧ piece.divides = next.divides)

/-- Pieces that make up a text: none is empty, and only markup divides. -/
structure MakeUp (text : List Char) (pieces : List Piece) : Prop where
  text_eq : pieces.flatMap Piece.text = text
  nonempty : ∀ piece ∈ pieces, piece.text ≠ []
  markup : ∀ piece ∈ pieces, piece.divides = true → piece.role = .markup

namespace MakeUp

theorem nil : MakeUp [] [] := ⟨rfl, by simp, by simp⟩

theorem singleton {role : Role} {divides : Bool} {text : List Char} (nonempty : text ≠ [])
    (markup : divides = true → role = .markup) : MakeUp text [⟨role, divides, text⟩] :=
  ⟨by simp, by simpa using nonempty, by simpa using markup⟩

theorem append {left right : List Char} {front back : List Piece} (first : MakeUp left front)
    (second : MakeUp right back) : MakeUp (left ++ right) (front ++ back) := by
  refine ⟨by rw [List.flatMap_append, first.text_eq, second.text_eq], ?_, ?_⟩
  · intro piece member
    exact (List.mem_append.mp member).elim (first.nonempty piece) (second.nonempty piece)
  · intro piece member
    exact (List.mem_append.mp member).elim (first.markup piece) (second.markup piece)

end MakeUp

/-! ### Joining pieces -/

theorem kind_mem_of_mem_cons {piece member : Piece} {pieces : List Piece}
    (among : member ∈ cons piece pieces) :
    ∃ source ∈ piece :: pieces, source.role = member.role ∧ source.divides = member.divides := by
  cases pieces with
  | nil => exact ⟨member, among, rfl, rfl⟩
  | cons next pieces =>
    rw [cons] at among
    split at among
    · rcases List.mem_cons.mp among with rfl | later
      · exact ⟨piece, List.mem_cons_self, rfl, rfl⟩
      · exact ⟨member, by simp [later], rfl, rfl⟩
    · exact ⟨member, among, rfl, rfl⟩

/-- Joining makes no kind of piece that was not there. -/
theorem kind_mem_of_mem_join {member : Piece} {pieces : List Piece} (among : member ∈ join pieces) :
    ∃ source ∈ pieces, source.role = member.role ∧ source.divides = member.divides := by
  induction pieces generalizing member with
  | nil => simp [join] at among
  | cons piece pieces ih =>
    rw [join] at among ih
    rw [List.filter_cons] at among
    split at among
    · obtain ⟨source, behind, role, divides⟩ := kind_mem_of_mem_cons among
      rcases List.mem_cons.mp behind with rfl | later
      · exact ⟨source, List.mem_cons_self, role, divides⟩
      · obtain ⟨other, present, otherRole, otherDivides⟩ := ih later
        exact ⟨other, List.mem_cons_of_mem _ present, otherRole.trans role,
          otherDivides.trans divides⟩
    · obtain ⟨other, present, same⟩ := ih among
      exact ⟨other, List.mem_cons_of_mem _ present, same⟩

theorem text_ne_nil_of_mem_cons {piece member : Piece} {pieces : List Piece}
    (first : piece.text ≠ []) (others : ∀ other ∈ pieces, other.text ≠ [])
    (among : member ∈ cons piece pieces) : member.text ≠ [] := by
  cases pieces with
  | nil =>
    obtain rfl := List.mem_singleton.mp among
    exact first
  | cons next pieces =>
    rw [cons] at among
    split at among
    · rcases List.mem_cons.mp among with rfl | later
      · simp [first]
      · exact others member (List.mem_cons_of_mem _ later)
    · rcases List.mem_cons.mp among with rfl | later
      · exact first
      · exact others member later

theorem text_ne_nil_of_mem_join {member : Piece} {pieces : List Piece}
    (among : member ∈ join pieces) : member.text ≠ [] := by
  induction pieces generalizing member with
  | nil => simp [join] at among
  | cons piece pieces ih =>
    rw [join] at among ih
    rw [List.filter_cons] at among
    split at among
    · next visible =>
      exact text_ne_nil_of_mem_cons (by simpa using visible) (fun other later => ih later) among
    · exact ih among

theorem isChain_cons (piece : Piece) {pieces : List Piece} (chain : pieces.IsChain Differ) :
    (cons piece pieces).IsChain Differ := by
  cases pieces with
  | nil => exact List.isChain_singleton piece
  | cons next pieces =>
    rw [cons]
    split
    · next same =>
      cases pieces with
      | nil => exact List.isChain_singleton _
      | cons third pieces =>
        rw [List.isChain_cons_cons] at chain ⊢
        refine ⟨fun equal => chain.1 ?_, chain.2⟩
        exact ⟨same.1.symm.trans equal.1, same.2.symm.trans equal.2⟩
    · next differ => exact List.isChain_cons_cons.mpr ⟨differ, chain⟩

/-- After joining, no two neighbours are of equal kind. -/
theorem isChain_join (pieces : List Piece) : (join pieces).IsChain Differ := by
  rw [join]
  induction pieces.filter (!·.text.isEmpty) with
  | nil => exact List.isChain_nil
  | cons piece pieces ih => exact isChain_cons piece ih

theorem MakeUp.join {pieces : List Piece}
    (markup : ∀ piece ∈ pieces, piece.divides = true → piece.role = .markup) :
    MakeUp (pieces.flatMap Piece.text) (join pieces) := by
  refine ⟨flatMap_text_join pieces, fun piece member => text_ne_nil_of_mem_join member, ?_⟩
  intro piece member divides
  obtain ⟨source, among, role, same⟩ := kind_mem_of_mem_join member
  rw [← role]
  exact markup source among (same.trans divides)

end Piece

/-- Of two items of an ordered list one comes first, unless they are the same. -/
theorem eq_or_ordered {α : Type} {relation : α → α → Prop} {items : List α}
    (ordered : items.Pairwise relation) {a b : α} (aMember : a ∈ items) (bMember : b ∈ items) :
    a = b ∨ relation a b ∨ relation b a := by
  obtain ⟨before, after, rfl⟩ := List.append_of_mem aMember
  rw [List.pairwise_append, List.pairwise_cons] at ordered
  rcases List.mem_append.mp bMember with earlier | later
  · exact .inr (.inr (ordered.2.2 b earlier a List.mem_cons_self))
  · rcases List.mem_cons.mp later with same | behind
    · exact .inl same.symm
    · exact .inr (.inl (ordered.2.1.1 b behind))

/-! ### Laying pieces out -/

namespace Span

/-- The spans cover the bytes from `start` to `stop` in order, without gap or overlap, and none of
them is empty. -/
def Tiles (start stop : Nat) : List Span → Prop
  | [] => start = stop
  | span :: spans =>
    span.range.start = start ∧ start < span.range.stop ∧ Tiles span.range.stop stop spans

theorem width_pos {text : List Char} (nonempty : text ≠ []) : 0 < width text :=
  Nat.pos_of_ne_zero (mt width_eq_zero.mp nonempty)

theorem place_append (start : Nat) (front back : List Piece) :
    place start (front ++ back) =
      place start front ++ place (start + width (front.flatMap Piece.text)) back := by
  induction front generalizing start with
  | nil => rfl
  | cons piece front ih =>
    simp only [List.cons_append, place, ih, List.flatMap_cons, width_append, Nat.add_assoc]

theorem tiles_place (start : Nat) {pieces : List Piece}
    (nonempty : ∀ piece ∈ pieces, piece.text ≠ []) :
    Tiles start (start + width (pieces.flatMap Piece.text)) (place start pieces) := by
  induction pieces generalizing start with
  | nil => rfl
  | cons piece pieces ih =>
    have positive := width_pos (nonempty piece List.mem_cons_self)
    refine ⟨rfl, by simpa using positive, ?_⟩
    have rest := ih (start + width piece.text)
      (fun other member => nonempty other (List.mem_cons_of_mem _ member))
    simpa only [List.flatMap_cons, width_append, Nat.add_assoc] using rest

theorem exists_piece_of_mem_place {start : Nat} {pieces : List Piece} {span : Span}
    (member : span ∈ place start pieces) :
    ∃ front piece back, pieces = front ++ piece :: back ∧
      span = ⟨piece.role, ⟨start + width (front.flatMap Piece.text),
        start + width (front.flatMap Piece.text) + width piece.text⟩, piece.divides⟩ := by
  induction pieces generalizing start with
  | nil => simp [place] at member
  | cons piece pieces ih =>
    rcases List.mem_cons.mp member with rfl | later
    · exact ⟨[], piece, pieces, rfl, rfl⟩
    · obtain ⟨front, other, back, parts, same⟩ := ih later
      refine ⟨piece :: front, other, back, by rw [parts]; rfl, ?_⟩
      simpa only [List.flatMap_cons, width_append, Nat.add_assoc] using same

theorem isChain_place (relation : Role × Bool → Role × Bool → Prop) (start : Nat)
    {pieces : List Piece}
    (chain : pieces.IsChain fun piece next =>
      relation (piece.role, piece.divides) (next.role, next.divides)) :
    (place start pieces).IsChain fun span next =>
      relation (span.role, span.divides) (next.role, next.divides) := by
  induction pieces generalizing start with
  | nil => exact List.isChain_nil
  | cons piece pieces ih =>
    cases pieces with
    | nil => exact List.isChain_singleton _
    | cons next pieces =>
      rw [List.isChain_cons_cons] at chain
      exact List.isChain_cons_cons.mpr ⟨chain.1, ih _ chain.2⟩

/-- Spans that tile a range leave no offset of it out. -/
theorem Tiles.exists_mem {start stop : Nat} {spans : List Span} (tiles : Tiles start stop spans)
    {offset : Nat} (lower : start ≤ offset) (upper : offset < stop) :
    ∃ span ∈ spans, offset ∈ span.range := by
  induction spans generalizing start with
  | nil =>
    have empty : start = stop := tiles
    omega
  | cons span spans ih =>
    obtain ⟨rfl, -, rest⟩ := tiles
    by_cases here : offset < span.range.stop
    · exact ⟨span, List.mem_cons_self, lower, here⟩
    · obtain ⟨other, member, inside⟩ := ih rest (Nat.not_lt.mp here)
      exact ⟨other, List.mem_cons_of_mem _ member, inside⟩

/-- Spans that tile a range are in order. -/
theorem Tiles.pairwise {start stop : Nat} {spans : List Span} (tiles : Tiles start stop spans) :
    spans.Pairwise (fun span later => span.range.stop ≤ later.range.start) ∧
      ∀ span ∈ spans, start ≤ span.range.start ∧ span.range.start < span.range.stop ∧
        span.range.stop ≤ stop := by
  induction spans generalizing start with
  | nil => exact ⟨List.Pairwise.nil, by simp⟩
  | cons span spans ih =>
    obtain ⟨rfl, positive, rest⟩ := tiles
    obtain ⟨ordered, bounds⟩ := ih rest
    refine ⟨List.Pairwise.cons (fun later member => (bounds later member).1) ordered, ?_⟩
    intro other member
    rcases List.mem_cons.mp member with rfl | later
    · refine ⟨Nat.le_refl _, positive, ?_⟩
      cases spans with
      | nil => exact Nat.le_of_eq rest
      | cons next spans =>
        have := bounds next List.mem_cons_self
        omega
    · have := bounds other later
      omega

/-- No offset is in two of the spans that tile a range. -/
theorem Tiles.eq_of_mem {start stop : Nat} {spans : List Span} (tiles : Tiles start stop spans)
    {span other : Span} (member : span ∈ spans) (among : other ∈ spans) {offset : Nat}
    (here : offset ∈ span.range) (there : offset ∈ other.range) : span = other := by
  simp only [ByteRange.mem_iff] at here there
  rcases eq_or_ordered tiles.pairwise.1 member among with same | before | behind
  · exact same
  · omega
  · omega

end Span

namespace Fragment

/-- Pieces that make up a fragment can be read off where they are laid out in it. -/
theorem map_slice_place (fragment : Fragment) {pieces : List Piece}
    (whole : pieces.flatMap Piece.text = fragment.text) :
    (Span.place fragment.start pieces).map
      (fun span => (⟨span.role, span.divides, (fragment.slice span.range).text⟩ : Piece)) =
      pieces := by
  obtain ⟨start, text⟩ := fragment
  have slices (front back : List Piece) (parts : front ++ back = pieces) :
      (Span.place (start + width (front.flatMap Piece.text)) back).map
        (fun span => (⟨span.role, span.divides,
          ((Fragment.mk start text).slice span.range).text⟩ : Piece)) = back := by
    induction back generalizing front with
    | nil => rfl
    | cons piece back ih =>
      have rest := ih (front ++ [piece]) (by simpa using parts)
      have cut : text = front.flatMap Piece.text ++ piece.text ++ back.flatMap Piece.text := by
        simpa [← parts] using whole.symm
      simp only [List.flatMap_append, List.flatMap_singleton, width_append] at rest
      simp only [Span.place, List.map_cons, Nat.add_assoc, rest]
      rw [cut, ← Nat.add_assoc, slice_append]
  simpa using slices [] pieces rfl

/-- The spans are pieces that make up the fragment, laid out from its start. -/
def IsSpannedBy (fragment : Fragment) (spans : List Span) : Prop :=
  ∃ pieces, Piece.MakeUp fragment.text pieces ∧ spans = Span.place fragment.start pieces

variable {fragment : Fragment} {spans : List Span}

namespace IsSpannedBy

theorem tiles (spanned : fragment.IsSpannedBy spans) :
    Span.Tiles fragment.start fragment.stop spans := by
  obtain ⟨pieces, makeUp, rfl⟩ := spanned
  rw [stop, ← makeUp.text_eq]
  exact Span.tiles_place fragment.start makeUp.nonempty

/-- Only markup divides prose. -/
theorem role_of_divides (spanned : fragment.IsSpannedBy spans) {span : Span}
    (member : span ∈ spans) (divides : span.divides = true) : span.role = .markup := by
  obtain ⟨pieces, makeUp, rfl⟩ := spanned
  obtain ⟨front, piece, back, rfl, rfl⟩ := Span.exists_piece_of_mem_place member
  exact makeUp.markup piece (by simp) divides

/-- The text of a span is the stretch of the fragment that its range names. -/
theorem slice_part (spanned : fragment.IsSpannedBy spans) {span : Span} (member : span ∈ spans) :
    ∃ left right, fragment.text = left ++ (fragment.slice span.range).text ++ right ∧
      span.range.start = fragment.start + width left ∧
      (fragment.slice span.range).range = span.range := by
  obtain ⟨pieces, makeUp, rfl⟩ := spanned
  obtain ⟨front, piece, back, rfl, rfl⟩ := Span.exists_piece_of_mem_place member
  obtain ⟨start, text⟩ := fragment
  have whole : text = front.flatMap Piece.text ++ piece.text ++ back.flatMap Piece.text := by
    simpa using makeUp.text_eq.symm
  subst whole
  rw [slice_append]
  exact ⟨_, _, rfl, rfl, rfl⟩

theorem slice_occursIn (spanned : fragment.IsSpannedBy spans) {text : List Char}
    (occurs : fragment.OccursIn text) {span : Span} (member : span ∈ spans) :
    (fragment.slice span.range).OccursIn text := by
  obtain ⟨left, right, parts, start, -⟩ := spanned.slice_part member
  have part := occurs.part _ _ _ parts
  rwa [← start] at part

/-- The spans of a fragment have ranges of every text in which the fragment occurs. -/
theorem isRangeOf (spanned : fragment.IsSpannedBy spans) {text : List Char}
    (occurs : fragment.OccursIn text) {span : Span} (member : span ∈ spans) :
    span.range.IsRangeOf text := by
  obtain ⟨-, -, -, -, range⟩ := spanned.slice_part member
  rw [← range]
  exact (spanned.slice_occursIn occurs member).isRangeOf

/-- The spans cut the fragment into adjacent fragments. -/
theorem adjacent_slices (spanned : fragment.IsSpannedBy spans) :
    Adjacent fragment.start fragment.stop (spans.map fun span => fragment.slice span.range) := by
  have stops : ∀ span ∈ spans, (fragment.slice span.range).stop = span.range.stop := by
    intro span member
    obtain ⟨-, -, -, -, range⟩ := spanned.slice_part member
    exact congrArg ByteRange.stop range
  have adjacent {start stop : Nat} {some : List Span} (tiles : Span.Tiles start stop some)
      (stops : ∀ span ∈ some, (fragment.slice span.range).stop = span.range.stop) :
      Adjacent start stop (some.map fun span => fragment.slice span.range) := by
    induction some generalizing start with
    | nil => exact tiles
    | cons span spans ih =>
      obtain ⟨rfl, -, rest⟩ := tiles
      refine ⟨rfl, ?_⟩
      rw [stops span List.mem_cons_self]
      exact ih rest fun other member => stops other (List.mem_cons_of_mem _ member)
  exact adjacent spanned.tiles stops

/-- The texts of the spans make up the fragment. -/
theorem flatMap_slice (spanned : fragment.IsSpannedBy spans) :
    spans.flatMap (fun span => (fragment.slice span.range).text) = fragment.text := by
  obtain ⟨pieces, makeUp, rfl⟩ := spanned
  have whole := congrArg (List.flatMap Piece.text) (map_slice_place _ makeUp.text_eq)
  rw [List.flatMap_map, makeUp.text_eq] at whole
  exact whole

theorem nil (start : Nat) : IsSpannedBy ⟨start, []⟩ [] := ⟨[], .nil, rfl⟩

theorem append {left right : Fragment} {front back : List Span} (first : left.IsSpannedBy front)
    (second : right.IsSpannedBy back) (meets : right.start = left.stop) :
    IsSpannedBy ⟨left.start, left.text ++ right.text⟩ (front ++ back) := by
  obtain ⟨leftPieces, leftMakeUp, rfl⟩ := first
  obtain ⟨rightPieces, rightMakeUp, rfl⟩ := second
  refine ⟨leftPieces ++ rightPieces, leftMakeUp.append rightMakeUp, ?_⟩
  rw [Span.place_append, leftMakeUp.text_eq, meets, stop]

theorem ofFragment (role : Role) (fragment : Fragment) :
    fragment.IsSpannedBy (Span.ofFragment role fragment) := by
  obtain ⟨start, text⟩ := fragment
  cases text with
  | nil => exact nil start
  | cons c text =>
    exact ⟨[⟨role, false, c :: text⟩], .singleton (by simp) (by simp), rfl⟩

theorem ofPieces (start : Nat) {pieces : List Piece}
    (markup : ∀ piece ∈ pieces, piece.divides = true → piece.role = .markup) :
    IsSpannedBy ⟨start, pieces.flatMap Piece.text⟩ (Span.ofPieces start pieces) :=
  ⟨Piece.join pieces, .join markup, rfl⟩

end IsSpannedBy

end Fragment

/-! ### Relabelling -/

namespace Span

/-- The pieces of a text that is cut in three, of which the middle one is made markup. -/
private def cutPieces (piece : Piece) (left middle right : List Char) : List Piece :=
  (if left = [] then [] else [{ piece with text := left }]) ++
    ⟨.markup, piece.divides, middle⟩ ::
      (if right = [] then [] else [{ piece with text := right }])

private theorem makeUp_cutPieces {piece : Piece} {left middle right : List Char}
    (parts : piece.text = left ++ middle ++ right) (nonempty : middle ≠ [])
    (markup : piece.divides = true → piece.role = .markup) :
    Piece.MakeUp piece.text (cutPieces piece left middle right) := by
  have side (text : List Char) :
      Piece.MakeUp text (if text = [] then [] else [{ piece with text := text }]) := by
    split
    · next empty => exact empty ▸ .nil
    · next visible => exact .singleton visible markup
  have center : Piece.MakeUp middle [⟨.markup, piece.divides, middle⟩] :=
    .singleton nonempty fun _ => rfl
  rw [parts, List.append_assoc]
  exact (side left).append (center.append (side right))

private theorem place_cutPieces (start : Nat) (piece : Piece) (left middle right : List Char) :
    place start (cutPieces piece left middle right) =
      (if start < start + width left
        then [⟨piece.role, ⟨start, start + width left⟩, piece.divides⟩] else []) ++
      ⟨.markup, ⟨start + width left, start + width left + width middle⟩, piece.divides⟩ ::
      (if start + width left + width middle < start + width left + width middle + width right
        then [⟨piece.role, ⟨start + width left + width middle,
          start + width left + width middle + width right⟩, piece.divides⟩] else []) := by
  have side (start : Nat) (text : List Char) :
      place start (if text = [] then [] else [{ piece with text := text }]) =
        if start < start + width text
          then [⟨piece.role, ⟨start, start + width text⟩, piece.divides⟩] else [] := by
    by_cases empty : text = []
    · simp [empty, place]
    · rw [if_neg empty, if_pos (Nat.lt_add_of_pos_right (width_pos empty))]
      rfl
  have front : (if left = [] then [] else [{ piece with text := left }]).flatMap Piece.text =
      left := by
    split
    · next empty => exact empty.symm
    · simp
  rw [cutPieces, place_append, side, front]
  simp only [place, side]

/-- A range between boundaries cuts a text that it meets into what is before, in and behind it. -/
private theorem exists_overlap {source text : List Char} {range : ByteRange} {start : Nat}
    (occurs : (Fragment.mk start text).OccursIn source) (first : IsBoundary source range.start)
    (last : IsBoundary source range.stop)
    (meets : max start range.start < min (start + width text) range.stop) :
    ∃ left middle right, text = left ++ middle ++ right ∧ middle ≠ [] ∧
      start + width left = max start range.start ∧
      start + width left + width middle = min (start + width text) range.stop := by
  have upper := occurs.isBoundary_stop
  have lower := occurs.isBoundary_start
  simp only [Fragment.stop] at upper lower
  -- Both ends of the overlap are boundaries: ends of the range, or ends of the text.
  have cutStart : IsBoundary source (max start range.start) := by
    rcases Nat.le_total start range.start with order | order
    · rwa [Nat.max_eq_right order]
    · rwa [Nat.max_eq_left order]
  have cutStop : IsBoundary source (min (start + width text) range.stop) := by
    rcases Nat.le_total (start + width text) range.stop with order | order
    · rwa [Nat.min_eq_left order]
    · rwa [Nat.min_eq_right order]
  obtain ⟨left, rest, parts, leftEnd⟩ := occurs.exists_cut cutStart (by dsimp only; omega) (by
    simp only [Fragment.stop]
    omega)
  obtain ⟨front, right, whole, frontEnd⟩ := occurs.exists_cut cutStop (by dsimp only; omega) (by
    simp only [Fragment.stop]
    omega)
  dsimp only at parts whole leftEnd frontEnd
  obtain ⟨middle, rfl, rfl⟩ := exists_between (parts.symm.trans whole) (by omega)
  rw [width_append, ← Nat.add_assoc] at frontEnd
  refine ⟨left, middle, right, whole, ?_, leftEnd, frontEnd⟩
  rintro rfl
  simp only [width_nil] at frontEnd
  omega

/-- Relabelling a piece lays out pieces that make up its text, if the ends of the range are
boundaries. -/
private theorem relabel_piece {source : List Char} {range : ByteRange} {start : Nat} {piece : Piece}
    (occurs : (Fragment.mk start piece.text).OccursIn source)
    (first : IsBoundary source range.start) (last : IsBoundary source range.stop)
    (nonempty : piece.text ≠ []) (markup : piece.divides = true → piece.role = .markup) :
    ∃ pieces, Piece.MakeUp piece.text pieces ∧
      relabel range ⟨piece.role, ⟨start, start + width piece.text⟩, piece.divides⟩ =
        place start pieces := by
  rw [relabel]
  dsimp only
  split
  · exact ⟨[piece], .singleton nonempty markup, rfl⟩
  · next meets =>
    simp only [not_or, Nat.not_le] at meets
    obtain ⟨left, middle, right, whole, visible, leftEnd, middleEnd⟩ :=
      exists_overlap occurs first last meets.1
    refine ⟨cutPieces piece left middle right, makeUp_cutPieces whole visible markup, ?_⟩
    have total : width piece.text = width left + width middle + width right := by
      rw [whole, width_append, width_append]
    rw [← leftEnd, ← middleEnd, total, place_cutPieces]
    simp only [Nat.add_assoc]

/-- What becomes of a span is part of it: markup, or a part of its role outside the range. -/
theorem mem_relabel {range : ByteRange} {source span : Span} (member : span ∈ relabel range source) :
    source.range.start ≤ span.range.start ∧ span.range.stop ≤ source.range.stop ∧
      span.divides = source.divides ∧
      (span.role = .markup ∨ span.role = source.role ∧ ∀ offset ∈ span.range, offset ∉ range) := by
  have outside {part : ByteRange}
      (apart : part.stop ≤ max source.range.start range.start ∨
        min source.range.stop range.stop ≤ part.start)
      (within : source.range.start ≤ part.start ∧ part.stop ≤ source.range.stop) :
      ∀ offset ∈ part, offset ∉ range := by
    intro offset inside covered
    rw [ByteRange.mem_iff] at inside covered
    omega
  rw [relabel] at member
  dsimp only at member
  split at member
  · next kept =>
    obtain rfl := List.mem_singleton.mp member
    refine ⟨Nat.le_refl _, Nat.le_refl _, rfl, ?_⟩
    rcases kept with apart | markup
    · refine .inr ⟨rfl, ?_⟩
      intro offset inside covered
      rw [ByteRange.mem_iff] at inside covered
      omega
    · exact .inl markup
  · next cut =>
    simp only [not_or, Nat.not_le] at cut
    rcases List.mem_append.mp member with before | after
    · split at before
      · obtain rfl := List.mem_singleton.mp before
        refine ⟨Nat.le_refl _, ?_, rfl, .inr ⟨rfl, outside (.inl (Nat.le_refl _)) ?_⟩⟩ <;>
          dsimp only <;> omega
      · simp at before
    · rcases List.mem_cons.mp after with rfl | after
      · exact ⟨Nat.le_max_left _ _, Nat.min_le_left _ _, rfl, .inl rfl⟩
      · split at after
        · obtain rfl := List.mem_singleton.mp after
          refine ⟨?_, Nat.le_refl _, rfl, .inr ⟨rfl, outside (.inr (Nat.le_refl _)) ?_⟩⟩ <;>
            dsimp only <;> omega
        · simp at after

/-- What lies outside the range keeps its role. -/
theorem exists_mem_relabel {range : ByteRange} {source : Span} {offset : Nat}
    (inside : offset ∈ source.range) (outside : offset ∉ range) :
    ∃ span ∈ relabel range source, offset ∈ span.range ∧ span.role = source.role := by
  rw [relabel]
  dsimp only
  split
  · exact ⟨source, List.mem_singleton_self _, inside, rfl⟩
  · next cut =>
    simp only [not_or, Nat.not_le] at cut
    simp only [ByteRange.mem_iff] at inside outside
    by_cases before : offset < max source.range.start range.start
    · refine ⟨{ source with range := ⟨source.range.start, max source.range.start range.start⟩ },
        ?_, ⟨inside.1, before⟩, rfl⟩
      rw [if_pos (by omega)]
      exact List.mem_append_left _ (List.mem_singleton_self _)
    · refine ⟨{ source with range := ⟨min source.range.stop range.stop, source.range.stop⟩ },
        ?_, ⟨?_, inside.2⟩, rfl⟩
      · rw [if_pos (c := min source.range.stop range.stop < source.range.stop) (by omega)]
        exact List.mem_append_right _ (List.mem_cons_of_mem _ (List.mem_singleton_self _))
      · dsimp only
        omega

end Span

/-- Relabelling between two boundaries of a text in which the fragment occurs leaves spans of the
fragment. -/
theorem Fragment.IsSpannedBy.relabelAll {source : List Char} {range : ByteRange}
    {fragment : Fragment} {spans : List Span} (spanned : fragment.IsSpannedBy spans)
    (occurs : fragment.OccursIn source) (first : IsBoundary source range.start)
    (last : IsBoundary source range.stop) :
    fragment.IsSpannedBy (Span.relabelAll range spans) := by
  obtain ⟨pieces, makeUp, rfl⟩ := spanned
  obtain ⟨start, text⟩ := fragment
  induction pieces generalizing start text with
  | nil => exact ⟨[], makeUp, rfl⟩
  | cons piece pieces ih =>
    have parts : text = piece.text ++ pieces.flatMap Piece.text := by
      simpa using makeUp.text_eq.symm
    subst parts
    have front : (Fragment.mk start piece.text).OccursIn source :=
      occurs.part [] piece.text _ rfl
    have back : (Fragment.mk (start + width piece.text) (pieces.flatMap Piece.text)).OccursIn
        source := occurs.part piece.text _ [] (List.append_nil _).symm
    obtain ⟨cut, cutMakeUp, same⟩ := Span.relabel_piece front first last
      (makeUp.nonempty piece List.mem_cons_self) (makeUp.markup piece List.mem_cons_self)
    have rest := ih (start + width piece.text) (pieces.flatMap Piece.text) back
      ⟨rfl, fun other later => makeUp.nonempty other (List.mem_cons_of_mem _ later),
        fun other later => makeUp.markup other (List.mem_cons_of_mem _ later)⟩
    have first : (Fragment.mk start piece.text).IsSpannedBy (Span.place start cut) :=
      ⟨cut, cutMakeUp, rfl⟩
    have whole := first.append rest rfl
    dsimp only at same whole ⊢
    rw [Span.relabelAll, Span.place, List.flatMap_cons, same]
    exact whole

end CommentProse
