import CommentProse.Proofs.Checked.Comment

/-! # Tag lines among the stretches of a text

Whether a stretch of a text is a tag line is told by the stretch alone, by what it begins with, and
its parts are told by what they are made of (`TagHead.IsHeadOf`). Nothing that stands around the
stretch has a part in it, and the offsets of the parts are computed in the text without cutting a
character.
-/

namespace CommentProse

namespace TagHead

/-- The tag lines among all stretches of a text. A stretch is taken for a tag line exactly if it
begins with blanks, the sign and a character of names, whatever stands around it in the text. Its
parts are the only ones that lie side by side in it with the name as long as can be, the argument
as the first word behind the name if the tag takes one, and all that is left as the body; and they
are found by their offsets in the text without cutting a character. -/
theorem tag_lines_are_tiled {text : List Char} {range : ByteRange} (valid : range.IsRangeOf text) :
    let content := (Fragment.mk 0 text).slice range
    content.OccursIn text ∧ content.range = range ∧
      Checked.tagHead? text range.start range.stop = some (parse? content) ∧
      ((parse? content).isSome = true ↔
        ∃ indent c rest, content.text = indent ++ '@' :: c :: rest ∧
          (∀ d ∈ indent, isBlank d = true) ∧ isNameChar c = true) ∧
      ∀ head, parse? content = some head ↔ IsHeadOf content head := by
  intro content
  obtain ⟨occurs, same⟩ := Fragment.occursIn_slice valid
  have checked := Checked.tagHead?_eq occurs
  rw [show content.stop = range.stop from congrArg ByteRange.stop same] at checked
  exact ⟨occurs, same, checked, isSome_parse?_iff, fun head => parse?_eq_some_iff⟩

/-- The argument begins right behind the name, and the stretch ends before the visible text behind
it. The indentation has a blank of three bytes. -/
theorem tag_lines_are_tiled_adjacent_argument :
    let text := "/** \u2003@param<\u00e9> b*/".toList
    let head : TagHead := ⟨⟨3, " \u2003@".toList⟩, ⟨8, "param".toList⟩, ⟨13, []⟩,
      some ⟨13, "<\u00e9>".toList⟩, ⟨17, [' ']⟩⟩
    ByteRange.IsRangeOf text ⟨3, 18⟩ ∧
      Checked.tagHead? text 3 18 = some (some head) ∧
      IsHeadOf ((Fragment.mk 0 text).slice ⟨3, 18⟩) head := by
  intro text head
  have valid : ByteRange.IsRangeOf text ⟨3, 18⟩ := .of_boundaries (by decide)
    ⟨"/**".toList, " \u2003@param<\u00e9> b*/".toList, by decide +kernel, by decide +kernel⟩
    ⟨"/** \u2003@param<\u00e9> ".toList, "b*/".toList, by decide +kernel, by decide +kernel⟩
  obtain ⟨-, -, checked, -, parts⟩ := tag_lines_are_tiled valid
  have parsed : parse? ((Fragment.mk 0 text).slice ⟨3, 18⟩) = some head := by decide +kernel
  exact ⟨valid, checked.trans (congrArg some parsed), (parts head).mp parsed⟩

end TagHead

end CommentProse
