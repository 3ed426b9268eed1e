import CommentProse.Text.Search

/-! # Finding documentation comments in a source file

A source is read as a sequence of lexemes. Literals, line comments and ordinary block comments are
lexemes of their own, so a comment opener inside one of them opens nothing; every other character
stands alone. The lexemes make up the source again (`Lexeme.append_first`), which is also why
reading them ends. A documentation comment without a closer runs to the end of the source.
-/

namespace CommentProse

/-- The delimiter that opens a documentation comment. -/
def opener : List Char := ['/', '*', '*']

/-- The delimiter that closes a block comment. -/
def closer : List Char := ['*', '/']

/-- A piece of source text that is read as one. -/
structure Lexeme where
  /-- Whether the piece is a documentation comment. -/
  isDoc : Bool
  text : List Char
deriving DecidableEq, Repr

namespace Lexeme

/-- The rest of a string or character literal, through its closing quote. A literal ends before a
line feed that is not escaped. -/
def literalTail (quote : Char) : List Char → List Char × List Char
  | [] => ([], [])
  | ['\\'] => (['\\'], [])
  | '\\' :: escaped :: text =>
    let (taken, rest) := literalTail quote text
    ('\\' :: escaped :: taken, rest)
  | c :: text =>
    if c = '\n' then ([], c :: text)
    else if c = quote then ([c], text)
    else
      let (taken, rest) := literalTail quote text
      (c :: taken, rest)

/-- The rest of a text block, through its three closing quotes. -/
def textBlockTail : List Char → List Char × List Char
  | [] => ([], [])
  | ['\\'] => (['\\'], [])
  | '\\' :: escaped :: text =>
    let (taken, rest) := textBlockTail text
    ('\\' :: escaped :: taken, rest)
  | '"' :: '"' :: '"' :: text => (['"', '"', '"'], text)
  | c :: text =>
    let (taken, rest) := textBlockTail text
    (c :: taken, rest)

theorem literalTail_append (quote : Char) (text : List Char) :
    (literalTail quote text).1 ++ (literalTail quote text).2 = text := by
  fun_induction literalTail quote text <;> simp_all

theorem textBlockTail_append (text : List Char) :
    (textBlockTail text).1 ++ (textBlockTail text).2 = text := by
  fun_induction textBlockTail text <;> simp_all

private theorem eq_cons_of_head? {c : Char} {text : List Char} (starts : text.head? = some c) :
    text = c :: text.drop 1 := by
  cases text with
  | nil => simp at starts
  | cons d text => simp_all

/-- What `/*` opens: a documentation comment if a second star follows that does not already belong
to the closer. -/
def blockComment (text : List Char) : Lexeme × List Char :=
  if text.head? = some '*' ∧ (text.drop 1).head? ≠ some '/' then
    let (taken, rest) := splitThrough closer (text.drop 1)
    (⟨true, '/' :: '*' :: '*' :: taken⟩, rest)
  else
    let (taken, rest) := splitThrough closer text
    (⟨false, '/' :: '*' :: taken⟩, rest)

theorem blockComment_append (text : List Char) :
    (blockComment text).1.text ++ (blockComment text).2 = '/' :: '*' :: text := by
  rw [blockComment]
  split
  · next starred =>
    have whole := eq_cons_of_head? starred.1
    simp only [List.cons_append, splitThrough_append]
    rw [← whole]
  · simp only [List.cons_append, splitThrough_append]

/-- The first lexeme of a text that begins with `c`, and what follows it. -/
def first (c : Char) (text : List Char) : Lexeme × List Char :=
  if c = '"' ∧ text.take 2 = ['"', '"'] then
    let (taken, rest) := textBlockTail (text.drop 2)
    (⟨false, '"' :: '"' :: '"' :: taken⟩, rest)
  else if c = '"' ∨ c = '\'' then
    let (taken, rest) := literalTail c text
    (⟨false, c :: taken⟩, rest)
  else if c = '/' ∧ text.head? = some '/' then
    let (taken, rest) := splitThrough ['\n'] text
    (⟨false, c :: taken⟩, rest)
  else if c = '/' ∧ text.head? = some '*' then blockComment (text.drop 1)
  else (⟨false, [c]⟩, text)

theorem append_first (c : Char) (text : List Char) :
    (first c text).1.text ++ (first c text).2 = c :: text := by
  rw [first]
  split
  · next quotes =>
    have whole : text = ['"', '"'] ++ text.drop 2 := by
      rw [← quotes.2, List.take_append_drop]
    simp only [List.cons_append, textBlockTail_append]
    rw [quotes.1, whole]
    rfl
  · split
    · simp only [List.cons_append, literalTail_append]
    · split
      · simp only [List.cons_append, splitThrough_append]
      · split
        · next starred =>
          rw [blockComment_append, starred.1, ← eq_cons_of_head? starred.2]
        · rfl

theorem first_text_ne_nil (c : Char) (text : List Char) : (first c text).1.text ≠ [] := by
  simp only [first, blockComment]
  repeat' split
  all_goals simp

theorem length_first_le (c : Char) (text : List Char) :
    (first c text).2.length ≤ text.length := by
  have whole := congrArg List.length (append_first c text)
  have taken := List.length_pos_iff.2 (first_text_ne_nil c text)
  simp only [List.length_append, List.length_cons] at whole
  omega

/-- The lexemes of a source, in order. -/
def ofSource : List Char → List Lexeme
  | [] => []
  | c :: text => (first c text).1 :: ofSource (first c text).2
termination_by source => source.length
decreasing_by exact Nat.lt_succ_of_le (length_first_le c text)

/-- The documentation comments among lexemes of which the first begins at `offset`. -/
def docComments (offset : Nat) : List Lexeme → List Fragment
  | [] => []
  | lexeme :: lexemes =>
    let later := docComments (offset + width lexeme.text) lexemes
    if lexeme.isDoc then ⟨offset, lexeme.text⟩ :: later else later

end Lexeme

/-- The documentation comments of a source, in order. -/
def docComments (source : List Char) : List Fragment :=
  Lexeme.docComments 0 (Lexeme.ofSource source)

end CommentProse
