import CommentProse.Proofs.Markup.Resuming

/-! # Lines can be read in parts

What is open between two lines is all that reading needs to know about the lines before. So a line
may be broken at any blank, in a tag, a quote, a comment or the body of a reference, and be read in
two parts: the same is open behind it, and its spans are the same once the two at the break are put
together (`OpenMarkup.readLine_append`). The break may not follow a slash, and no reference may have
a target, since what is known of either is not kept between lines.
-/

namespace CommentProse

namespace Span

/-- Puts a span before others; neighbours of equal kind become one. -/
def cons (span : Span) : List Span → List Span
  | [] => [span]
  | next :: spans =>
    if span.role = next.role ∧ span.divides = next.divides then
      ⟨span.role, ⟨span.range.start, next.range.stop⟩, span.divides⟩ :: spans
    else span :: next :: spans

/-- Joins neighbours of equal kind. -/
def join (spans : List Span) : List Span := spans.foldr cons []

theorem place_cons (piece : Piece) (start : Nat) (pieces : List Piece) :
    place start (Piece.cons piece pieces) =
      cons ⟨piece.role, ⟨start, start + width piece.text⟩, piece.divides⟩
        (place (start + width piece.text) pieces) := by
  cases pieces with
  | nil => rfl
  | cons next pieces =>
    rw [place, cons, Piece.cons]
    dsimp only
    split
    · simp only [place, width_append, Nat.add_assoc]
    · rfl

/-- Joining spans is joining the pieces that are laid out as them. -/
theorem join_place (start : Nat) {pieces : List Piece}
    (nonempty : ∀ piece ∈ pieces, piece.text ≠ []) :
    join (place start pieces) = place start (Piece.join pieces) := by
  induction pieces generalizing start with
  | nil => rfl
  | cons piece pieces ih =>
    obtain ⟨visible, others⟩ := List.forall_mem_cons.mp nonempty
    rw [Piece.join_cons, if_neg visible, place_cons, ← ih _ others]
    rfl

end Span

namespace OpenMarkup

/-- What can be open between two lines under these settings: lines are read, and at the edges
markup is given up. -/
inductive Reachable (settings : Settings) : OpenMarkup → Prop where
  | none : Reachable settings none
  | readLine (markup : OpenMarkup) (content : Fragment) (reachable : Reachable settings markup) :
    Reachable settings (markup.readLine settings content).2
  | closed (markup : OpenMarkup) (edge : Edge) (reachable : Reachable settings markup) :
    Reachable settings (markup.closed edge)

variable {settings : Settings} {markup : OpenMarkup}

theorem Reachable.awaitsNoTarget (noLabel : ∀ name, settings.bodyPolicy name ≠ .label)
    (reachable : markup.Reachable settings) : markup.AwaitsNoTarget := by
  induction reachable with
  | none => nofun
  | readLine markup content reachable ih => exact ih.read noLabel content.start
  | closed markup edge reachable ih => nofun

/-- A line that is broken at a blank, but not behind a slash, is read in two parts as it is read at
once if no reference has a target: what is open behind it is the same, and so are its spans once
neighbours of equal kind are joined. -/
theorem readLine_append (noLabel : ∀ name, settings.bodyPolicy name ≠ .label)
    (reachable : markup.Reachable settings) (start : Nat) {front back : List Char}
    (meet : MeetAtBlank front back) (noSlash : EndsWithoutSlash front) :
    let first := markup.readLine settings ⟨start, front⟩
    let second := first.2.readLine settings ⟨start + width front, back⟩
    let whole := markup.readLine settings ⟨start, front ++ back⟩
    Span.join (first.1 ++ second.1) = whole.1 ∧ second.2 = whole.2 := by
  obtain ⟨joined, last⟩ :=
    read_append noLabel (reachable.awaitsNoTarget noLabel) start meet noSlash
  have stop : (Fragment.mk (start + width front) back).stop =
      (Fragment.mk start (front ++ back)).stop := by
    simp only [Fragment.stop, width_append, Nat.add_assoc]
  have place (first second : List Piece) (text : first.flatMap Piece.text = front) :
      Span.ofPieces start first ++ Span.ofPieces (start + width front) second =
        Span.place start (Piece.join first ++ Piece.join second) := by
    rw [Span.place_append, Piece.flatMap_text_join, text, Span.ofPieces, Span.ofPieces]
  simp only [readLine, read_withReach, stop, last, and_true]
  rw [place _ _ (flatMap_text_read settings markup start front), Span.join_place, Span.ofPieces,
    Piece.join_join_append, Piece.join_append_congr (Piece.join_join _), joined]
  intro piece member
  exact (List.mem_append.mp member).elim Piece.text_ne_nil_of_mem_join Piece.text_ne_nil_of_mem_join

/-- A line that begins in a quote, in a tag in a reference, is broken between the braces of another
reference in the first. -/
theorem readLine_append_inBraces :
    let markup := (none.readLine .standard ⟨0, "\x7b@return a <i k=\"u".toList⟩).2
    let front := "v\">b \x7b@code \x7bc".toList
    let back := " d\x7d e\x7d f".toList
    let first := markup.readLine .standard ⟨20, front⟩
    let second := first.2.readLine .standard ⟨34, back⟩
    markup.Reachable .standard ∧ MeetAtBlank front back ∧ EndsWithoutSlash front ∧
      markup.tag = some ⟨11, .element "i" false, some '"', false⟩ ∧
      first.2.references = [⟨25, "code", 1, .excluded⟩, ⟨0, "return", 0, .running⟩] ∧
      Span.join (first.1 ++ second.1) =
        [⟨.markup, ⟨20, 23⟩, false⟩, ⟨.prose, ⟨23, 25⟩, false⟩, ⟨.markup, ⟨25, 27⟩, false⟩,
          ⟨.tagName, ⟨27, 31⟩, false⟩, ⟨.argument, ⟨31, 39⟩, false⟩, ⟨.markup, ⟨39, 40⟩, false⟩,
          ⟨.prose, ⟨40, 42⟩, false⟩] ∧
      second.2 = ⟨.none, [⟨0, "return", 0, .running⟩], .none, 42⟩ := by
  intro markup front back first second
  have noLabel (name : String) : Settings.standard.bodyPolicy name ≠ .label := by
    change BodyPolicy.standard name ≠ .label
    rw [BodyPolicy.standard]
    split <;> nofun
  have reachable : markup.Reachable .standard := .readLine none _ .none
  have meet : MeetAtBlank front back := by decide
  have noSlash : EndsWithoutSlash front := by decide +kernel
  have read : markup.readLine .standard ⟨20, front ++ back⟩ =
      ([⟨.markup, ⟨20, 23⟩, false⟩, ⟨.prose, ⟨23, 25⟩, false⟩, ⟨.markup, ⟨25, 27⟩, false⟩,
        ⟨.tagName, ⟨27, 31⟩, false⟩, ⟨.argument, ⟨31, 39⟩, false⟩, ⟨.markup, ⟨39, 40⟩, false⟩,
        ⟨.prose, ⟨40, 42⟩, false⟩], ⟨.none, [⟨0, "return", 0, .running⟩], .none, 42⟩) := by
    decide +kernel
  obtain ⟨joined, last⟩ := readLine_append noLabel reachable 20 meet noSlash
  rw [read] at joined last
  exact ⟨reachable, meet, noSlash, by decide +kernel, by decide +kernel, joined, last⟩

end OpenMarkup

end CommentProse
