import CommentProse.Markup.Reading
import CommentProse.Proofs.Markup.Tiling
import Mathlib.Data.List.TakeWhile

/-! # What reading a line yields

However much markup is open when a line begins, reading it yields spans of exactly this line, no two
neighbours alike, of which only markup divides prose. Blanks outside tags and references divide
nothing.
-/

namespace CommentProse

/-- A name is not empty, and has the characters of names only. -/
theorem OpenReference.name_of_name? {text name rest : List Char}
    (found : name? text = some (name, rest)) :
    name ≠ [] ∧ ∀ c ∈ name, isNameChar c = true := by
  simp only [name?] at found
  split at found
  · split at found
    · cases found
    · next nonempty =>
      cases found
      exact ⟨by simpa using nonempty, fun c member => List.mem_takeWhile_imp member⟩
  · cases found

namespace OpenMarkup

/-! ### Pieces -/

theorem role_of_divides_stepRunning (settings : Settings) (markup : OpenMarkup) (place : Nat)
    (c : Char) (text : List Char) :
    ∀ piece ∈ (markup.stepRunning settings place c text).pieces,
      piece.divides = true → piece.role = .markup := by
  simp only [stepRunning, stepLess, stepOpen, stepClose, stepText]
  repeat' split
  all_goals simp

/-- Only markup divides prose. -/
theorem role_of_divides_step (settings : Settings) (markup : OpenMarkup) (place : Nat) (c : Char)
    (text : List Char) :
    ∀ piece ∈ (markup.step settings place c text).pieces,
      piece.divides = true → piece.role = .markup := by
  rw [step]
  split
  · rw [stepTag]
    split <;> simp
  · split
    · rw [stepExcluded]
      split <;> simp
    · split
      · exact role_of_divides_stepRunning settings _ place c text
      · simp [stepTarget]
    · exact role_of_divides_stepRunning settings markup place c text
  · exact role_of_divides_stepRunning settings markup place c text

theorem role_of_divides_read (settings : Settings) (markup : OpenMarkup) (place : Nat)
    (text : List Char) :
    ∀ piece ∈ (markup.read settings place text).1,
      piece.divides = true → piece.role = .markup := by
  fun_induction read settings markup place text with
  | case1 => simp
  | case2 markup place c text advance pieces last rest ih =>
    rw [rest] at ih
    intro piece member
    rcases List.mem_append.mp member with first | later
    · exact role_of_divides_step settings markup place c text piece first
    · exact ih piece later

theorem not_isMarkupChar_of_isBlank {c : Char} (blank : isBlank c = true) :
    isMarkupChar c = false := by
  simp only [isMarkupChar, Bool.or_eq_false_iff, beq_eq_false_iff_ne]
  refine ⟨⟨?_, ?_⟩, ?_⟩ <;> rintro rfl <;> exact absurd blank (by decide)

/-- Blanks outside tags and references are plain text, whatever element is open. -/
theorem read_of_allBlank (settings : Settings) {markup : OpenMarkup} (place : Nat)
    {text : List Char} (noTag : markup.tag = .none) (noReference : markup.references = [])
    (blank : allBlank text = true) :
    ∃ pieces, markup.read settings place text = (pieces, markup) ∧
      ∀ piece ∈ pieces, piece.divides = false := by
  cases text with
  | nil => exact ⟨[], by rw [read], by simp⟩
  | cons c text =>
    simp only [allBlank, List.all_cons, Bool.and_eq_true] at blank
    have plain := not_isMarkupChar_of_isBlank blank.1
    simp only [isMarkupChar, Bool.or_eq_false_iff, beq_eq_false_iff_ne] at plain
    have whole : text.dropWhile (!isMarkupChar ·) = [] := by
      rw [List.dropWhile_eq_nil_iff]
      intro d member
      simp [not_isMarkupChar_of_isBlank (List.all_eq_true.mp blank.2 d member)]
    have running : markup.step settings place c text = markup.stepText c text := by
      simp only [step, noTag, noReference, stepRunning, plain.1.1, plain.1.2, plain.2, if_false]
    refine ⟨(markup.stepText c text).pieces, ?_, ?_⟩
    · rw [read, running]
      simp [stepText, whole, read]
    · simp [stepText]

/-! ### Lines -/

theorem isSpannedBy_readLine (settings : Settings) (markup : OpenMarkup) (content : Fragment) :
    content.IsSpannedBy (markup.readLine settings content).1 := by
  have spanned := Fragment.IsSpannedBy.ofPieces content.start
    (role_of_divides_read settings markup content.start content.text)
  rw [flatMap_text_read] at spanned
  exact spanned

/-- No two neighbours among the spans of a line are of equal kind. -/
theorem isChain_readLine (settings : Settings) (markup : OpenMarkup) (content : Fragment) :
    (markup.readLine settings content).1.IsChain fun span next =>
      ¬(span.role = next.role ∧ span.divides = next.divides) :=
  Span.isChain_place (fun kind next => ¬(kind.1 = next.1 ∧ kind.2 = next.2)) content.start
    (Piece.isChain_join _)

theorem divides_readLine_of_allBlank (settings : Settings) {markup : OpenMarkup}
    {content : Fragment} (noTag : markup.tag = .none) (noReference : markup.references = [])
    (blank : allBlank content.text = true) :
    ∀ span ∈ (markup.readLine settings content).1, span.divides = false := by
  intro span member
  obtain ⟨front, piece, back, parts, rfl⟩ := Span.exists_piece_of_mem_place member
  have joined : piece ∈ Piece.join (markup.read settings content.start content.text).1 := by
    rw [parts]
    simp
  obtain ⟨source, among, -, same⟩ := Piece.kind_mem_of_mem_join joined
  obtain ⟨pieces, read, joins⟩ := read_of_allBlank settings content.start noTag noReference blank
  rw [← same]
  exact joins source (by rwa [read] at among)

end OpenMarkup

end CommentProse
