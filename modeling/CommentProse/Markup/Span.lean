import CommentProse.Text.Basic

/-! # Spans

A span is a range of a line with a role. Reading a line yields pieces of text with their roles;
`Span.ofPieces` joins neighbours of equal kind and lays the pieces out as adjacent spans. Markup
that turns out to be unfinished is relabelled afterwards: `Span.relabelAll` cuts the spans at the
ends of a range and makes markup of what lies inside.
-/

namespace CommentProse

/-- What a stretch of a comment is for. -/
inductive Role where
  | prose
  | markup
  | tagName
  | argument
deriving DecidableEq, Repr

/-- The name of a role in listings. -/
def Role.name : Role → String
  | .prose => "Prose"
  | .markup => "Markup"
  | .tagName => "TagName"
  | .argument => "TagArg"

/-- A stretch of text with its role, before it is put in place. -/
structure Piece where
  role : Role
  /-- Whether the prose before and the prose after are apart. -/
  divides : Bool
  text : List Char
deriving DecidableEq, Repr

namespace Piece

/-- Puts a piece before others; neighbours of equal kind become one. -/
def cons (piece : Piece) : List Piece → List Piece
  | [] => [piece]
  | next :: pieces =>
    if piece.role = next.role ∧ piece.divides = next.divides then
      ⟨piece.role, piece.divides, piece.text ++ next.text⟩ :: pieces
    else piece :: next :: pieces

/-- Drops empty pieces and joins neighbours of equal kind. -/
def join (pieces : List Piece) : List Piece :=
  (pieces.filter (!·.text.isEmpty)).foldr cons []

theorem flatMap_text_cons (piece : Piece) (pieces : List Piece) :
    (cons piece pieces).flatMap text = piece.text ++ pieces.flatMap text := by
  cases pieces with
  | nil => rfl
  | cons next pieces => rw [cons]; split <;> simp

/-- Joining changes no text. -/
theorem flatMap_text_join (pieces : List Piece) :
    (join pieces).flatMap text = pieces.flatMap text := by
  induction pieces with
  | nil => rfl
  | cons piece pieces ih =>
    rw [join] at ih ⊢
    cases empty : piece.text.isEmpty
    · simp [empty, flatMap_text_cons, ih]
    · simp_all

end Piece

/-- A range of a comment with its role. -/
structure Span where
  role : Role
  range : ByteRange
  /-- Whether the prose before and the prose after are apart. -/
  divides : Bool
deriving DecidableEq, Repr

namespace Span

/-- Lays pieces out one after the other, the first at `start`. -/
def place (start : Nat) : List Piece → List Span
  | [] => []
  | piece :: pieces =>
    let stop := start + width piece.text
    ⟨piece.role, ⟨start, stop⟩, piece.divides⟩ :: place stop pieces

/-- The spans of a text that begins at `start` and was read as these pieces. -/
def ofPieces (start : Nat) (pieces : List Piece) : List Span :=
  place start (Piece.join pieces)

/-- A fragment as a single span, or no span if the fragment is empty. -/
def ofFragment (role : Role) (fragment : Fragment) : List Span :=
  if fragment.isEmpty then [] else [⟨role, fragment.range, false⟩]

/-- Makes markup of the part of a span that lies in a range, and keeps the parts on either side. -/
def relabel (range : ByteRange) (span : Span) : List Span :=
  let start := max span.range.start range.start
  let stop := min span.range.stop range.stop
  if stop ≤ start ∨ span.role = .markup then [span]
  else
    let before := { span with range := ⟨span.range.start, start⟩ }
    let after := { span with range := ⟨stop, span.range.stop⟩ }
    (if span.range.start < start then [before] else []) ++
      ⟨.markup, ⟨start, stop⟩, span.divides⟩ ::
        (if stop < span.range.stop then [after] else [])

/-- Makes markup of everything in a range. -/
def relabelAll (range : ByteRange) (spans : List Span) : List Span :=
  spans.flatMap (relabel range)

end Span

end CommentProse
