import CommentProse.FoundComment
import CommentProse.Proofs.Comment.Layout
import CommentProse.Proofs.Discovery
import CommentProse.Proofs.Text.Search

/-! # The delimiters of the comments that are found

A comment is looked for twice: once in the source, where it is a lexeme that begins with the opener
and runs through the first closer behind it, and once more in its own text, when it is parsed. Both
find the same closer (`Lexeme.parse_text_of_isDoc`): the text up to the first closer of the source
ends with the first closer of the text. Only a comment without a closer is cut off by the end of the
source, and then no lexeme follows.
-/

namespace CommentProse

namespace DocComment

/-- A body up to its first closer is a comment with nothing behind. -/
theorem parse_of_closed {body : List Char}
    (closed : splitBefore? closer (body ++ (closer ++ [])) = some (body, closer ++ [])) :
    parse (opener ++ (body ++ closer)) = .ok ⟨body, []⟩ :=
  parse_eq_ok_iff.mpr ⟨by simp [source], closed, rfl⟩

theorem parse_of_unclosed {text : List Char} (unclosed : splitBefore? closer text = none) :
    parse (opener ++ text) = .error .unclosed := by
  rw [parse, if_pos (List.isPrefixOf_iff_prefix.mpr (List.prefix_append ..)), List.drop_left,
    unclosed]

theorem opener_prefix_of_parse {text : List Char} (opened : parse text ≠ .error .missingOpener) :
    opener <+: text := by
  refine List.isPrefixOf_iff_prefix.mp (Decidable.byContradiction fun other => opened ?_)
  rw [parse, if_neg other]

/-- A comment with nothing behind its closer ends with the closer. -/
theorem closerFragment_stop {text : List Char} {comment : DocComment}
    (parsed : parse text = .ok comment) (bare : comment.trailing = []) :
    comment.closerFragment.stop = width text := by
  have whole := source_of_parse parsed
  rw [← whole, source, bare, List.append_nil, width_append]
  rfl

end DocComment

namespace Lexeme

theorem blockComment_of_isDoc {text : List Char} (doc : (blockComment text).1.isDoc = true) :
    blockComment text = (⟨true, opener ++ (splitThrough closer (text.drop 1)).1⟩,
      (splitThrough closer (text.drop 1)).2) := by
  rw [blockComment] at doc ⊢
  split at doc
  · next starred => rw [if_pos starred]; rfl
  · cases doc

/-- A documentation comment runs from its opener through the first closer behind it. -/
theorem exists_splitThrough_of_isDoc {c : Char} {text : List Char}
    (doc : (first c text).1.isDoc = true) :
    ∃ behind, first c text = (⟨true, opener ++ (splitThrough closer behind).1⟩,
      (splitThrough closer behind).2) := by
  rw [first] at doc ⊢
  split at doc
  · cases doc
  · next noBlock =>
    rw [if_neg noBlock]
    split at doc
    · cases doc
    · next noLiteral =>
      rw [if_neg noLiteral]
      split at doc
      · cases doc
      · next noLine =>
        rw [if_neg noLine]
        split at doc
        · next starred =>
          rw [if_pos starred]
          exact ⟨_, blockComment_of_isDoc doc⟩
        · cases doc

/-- In its own text a documentation comment ends where it ends in the source. Without a closer it
takes all that is left of the source. -/
theorem parse_text_of_isDoc {c : Char} {text : List Char}
    (doc : (first c text).1.isDoc = true) :
    (∃ body, DocComment.parse (first c text).1.text = .ok ⟨body, []⟩) ∨
      DocComment.parse (first c text).1.text = .error .unclosed ∧ (first c text).2 = [] := by
  obtain ⟨behind, shape⟩ := exists_splitThrough_of_isDoc doc
  rw [shape]
  cases split : splitBefore? closer behind with
  | none =>
    have whole : splitThrough closer behind = (behind, []) := by
      simp [splitThrough, splitThrough?, split]
    rw [whole]
    exact .inr ⟨DocComment.parse_of_unclosed split, rfl⟩
  | some halves =>
    obtain ⟨body, closerOn⟩ := halves
    obtain ⟨-, ⟨rest, rfl⟩, -⟩ := splitBefore?_eq_some_iff.mp split
    have through : splitThrough closer behind = (body ++ closer, rest) := by
      simp [splitThrough, splitThrough?, split]
    rw [through]
    exact .inl ⟨body, DocComment.parse_of_closed (splitBefore?_append [] split)⟩

/-- Every lexeme is the first of what is left of the source when the lexemes before it are read. -/
theorem exists_first_of_ofSource {source : List Char} {front back : List Lexeme} {lexeme : Lexeme}
    (lexemes : ofSource source = front ++ lexeme :: back) :
    ∃ c text, first c text = (lexeme, back.flatMap Lexeme.text) := by
  induction front generalizing source with
  | nil =>
    cases source with
    | nil => simp [ofSource] at lexemes
    | cons c source =>
      rw [ofSource, List.nil_append] at lexemes
      obtain ⟨rfl, rest⟩ := List.cons.inj lexemes
      exact ⟨c, source, by rw [← rest, flatMap_text_ofSource]⟩
  | cons earlier front ih =>
    cases source with
    | nil => simp [ofSource] at lexemes
    | cons c source =>
      rw [ofSource, List.cons_append] at lexemes
      exact ih (List.cons.inj lexemes).2

theorem text_ne_nil_of_mem_ofSource {source : List Char} {lexeme : Lexeme}
    (member : lexeme ∈ ofSource source) : lexeme.text ≠ [] := by
  obtain ⟨front, back, lexemes⟩ := List.append_of_mem member
  obtain ⟨c, text, read⟩ := exists_first_of_ofSource lexemes
  have nonempty := first_text_ne_nil c text
  rwa [read] at nonempty

theorem docComments_append (offset : Nat) (front back : List Lexeme) :
    docComments offset (front ++ back) =
      docComments offset front ++ docComments (offset + width (front.flatMap text)) back := by
  induction front generalizing offset with
  | nil => rfl
  | cons lexeme front ih =>
    simp only [List.cons_append, docComments, ih, List.flatMap_cons, width_append, Nat.add_assoc]
    split <;> rfl

/-- A documentation comment stands behind all lexemes before it. -/
theorem exists_lexeme_of_mem_docComments {offset : Nat} {lexemes : List Lexeme} {block : Fragment}
    (member : block ∈ docComments offset lexemes) :
    ∃ front lexeme back, lexemes = front ++ lexeme :: back ∧ lexeme.isDoc = true ∧
      block = ⟨offset + width (front.flatMap text), lexeme.text⟩ := by
  induction lexemes generalizing offset with
  | nil => simp [docComments] at member
  | cons lexeme lexemes ih =>
    have later (behind : block ∈ docComments (offset + width lexeme.text) lexemes) :
        ∃ front other back, lexeme :: lexemes = front ++ other :: back ∧ other.isDoc = true ∧
          block = ⟨offset + width (front.flatMap text), other.text⟩ := by
      obtain ⟨front, other, back, rfl, doc, rfl⟩ := ih behind
      exact ⟨lexeme :: front, other, back, rfl, doc, by simp [Nat.add_assoc]⟩
    rw [docComments] at member
    split at member
    · next doc =>
      rcases List.mem_cons.mp member with rfl | behind
      · exact ⟨[], lexeme, lexemes, rfl, doc, by simp⟩
      · exact later behind
    · exact later member

end Lexeme

/-- What the text of a comment that was found is to its source. -/
theorem parse_text_of_mem_docComments {source : List Char} {block : Fragment}
    (member : block ∈ docComments source) :
    (∃ body, DocComment.parse block.text = .ok ⟨body, []⟩) ∨
      DocComment.parse block.text = .error .unclosed ∧ block.stop = width source ∧
        (docComments source).getLast? = some block := by
  obtain ⟨front, lexeme, back, lexemes, doc, rfl⟩ :=
    Lexeme.exists_lexeme_of_mem_docComments member
  obtain ⟨c, text, read⟩ := Lexeme.exists_first_of_ofSource lexemes
  have first : (Lexeme.first c text).1.isDoc = true := by rw [read]; exact doc
  have parsed := Lexeme.parse_text_of_isDoc first
  simp only [read] at parsed
  refine parsed.imp_right fun ⟨unclosed, ends⟩ => ⟨unclosed, ?_, ?_⟩
  · have whole := Lexeme.flatMap_text_ofSource source
    rw [lexemes, List.flatMap_append, List.flatMap_cons, ends, List.append_nil] at whole
    simp [Fragment.stop, ← whole]
  · have alone : back = [] := by
      cases back with
      | nil => rfl
      | cons next back =>
        have present : next ∈ Lexeme.ofSource source := by simp [lexemes]
        have nonempty := Lexeme.text_ne_nil_of_mem_ofSource present
        simp_all
    rw [CommentProse.docComments, lexemes, alone, Lexeme.docComments_append]
    simp [Lexeme.docComments, doc]

/-- The comments that are found in a source stand in it in order and apart. Each begins with the
opener, and either it is parsed with its closer as its end, or nothing closes it, and then it is the
last one and reaches the end of the source. So no comment that is found is without an opener or has
text behind its closer. -/
theorem FoundComment.blocks_are_delimited (settings : Settings) (source : List Char) :
    (∀ block ∈ docComments source, block.OccursIn source ∧ opener <+: block.text ∧
      ((∃ comment, DocComment.parse block.text = .ok comment ∧ comment.trailing = [] ∧
          block.start + comment.closerFragment.stop = block.stop) ∨
        DocComment.parse block.text = .error .unclosed ∧ block.stop = width source ∧
          (docComments source).getLast? = some block)) ∧
    (docComments source).Pairwise (fun block later => block.stop ≤ later.start) ∧
    ∀ found ∈ all settings source, found.outcome ≠ .error .missingOpener ∧
      ∀ offset, found.outcome ≠ .error (.textAfterCloser offset) := by
  refine ⟨fun block member => ⟨occursIn_of_mem_docComments member, ?_, ?_⟩,
    pairwise_docComments source, ?_⟩
  · refine DocComment.opener_prefix_of_parse ?_
    rcases parse_text_of_mem_docComments member with ⟨body, parsed⟩ | ⟨unclosed, -⟩
    · simp [parsed]
    · simp [unclosed]
  · refine (parse_text_of_mem_docComments member).imp_left fun ⟨body, parsed⟩ => ?_
    refine ⟨_, parsed, rfl, ?_⟩
    rw [DocComment.closerFragment_stop parsed rfl]
    rfl
  · intro found member
    obtain ⟨block, present, rfl⟩ := List.mem_map.mp member
    rcases parse_text_of_mem_docComments present with ⟨body, parsed⟩ | ⟨unclosed, -⟩
    · simp [Analysis.ofBlock, parsed]
    · simp [Analysis.ofBlock, unclosed]

end CommentProse
