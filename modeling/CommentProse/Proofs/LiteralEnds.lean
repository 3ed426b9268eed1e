import CommentProse.Proofs.Delimiters
import CommentProse.Proofs.LexicalGrammar
import Mathlib.Data.List.Infix

/-! # Where literals end

A literal that nothing closes ends with its line, so it hides nothing of the next line. The one
exception is a line that ends with a backslash: the escape takes the line feed, whatever it is, and
the literal goes on in the next line. So the comments behind a line feed are found as if nothing
stood before it exactly if the text before it does not end within an escape of a literal
(`docComments_behind_lineFeed_iff`).
-/

namespace CommentProse

namespace Lexeme

/-- The comments among lexemes are the same wherever the lexemes begin. -/
theorem map_shift_docComments (more offset : Nat) (lexemes : List Lexeme) :
    (docComments offset lexemes).map (Fragment.shift more) = docComments (more + offset) lexemes := by
  induction lexemes generalizing offset with
  | nil => rfl
  | cons lexeme lexemes ih =>
    rw [docComments, docComments, Nat.add_assoc, ← ih]
    split <;> rfl

variable {quote c : Char} {text : List Char}

/-! ### Literals -/

theorem literalTail_cons (plain : c ≠ '\\') (quote : Char) (text : List Char) :
    literalTail quote (c :: text) =
      if c = '\n' then ([], c :: text)
      else if c = quote then ([c], text)
      else (c :: (literalTail quote text).1, (literalTail quote text).2) := by
  rw [literalTail]
  · exact fun backslash _ => plain backslash
  · exact fun _ _ backslash _ => plain backslash

/-- A literal that does not end within an escape ends where it does without what follows behind a
line feed. -/
theorem literalTail_of_unescaped (behind : List Char)
    (whole : Unescaped (literalTail quote text).1) :
    literalTail quote (text ++ '\n' :: behind) =
      ((literalTail quote text).1, (literalTail quote text).2 ++ '\n' :: behind) := by
  fun_induction literalTail quote text with
  | case1 => simp [literalTail]
  | case2 =>
    cases whole with
    | plain other => exact absurd rfl other
  | case3 escaped text taken rest read ih =>
    rw [read] at ih
    simp only [List.cons_append, literalTail, ih (unescaped_escape.mp whole)]
  | case4 text => simp [literalTail]
  | case5 text single paired feed =>
    rw [List.cons_append, literalTail_cons (SourceToken.ne_backslash single paired), if_neg feed,
      if_pos rfl]
  | case6 c text single paired feed other taken rest read ih =>
    have plain := SourceToken.ne_backslash single paired
    rw [read] at ih
    rw [List.cons_append, literalTail_cons plain, if_neg feed, if_neg other,
      ih ((unescaped_cons plain).mp whole)]

/-- A literal that ends within an escape is all that is left of the text, and a line feed is
escaped. -/
theorem literalTail_of_not_unescaped (plainQuote : quote ≠ '\\') (behind : List Char)
    (cut : ¬Unescaped (literalTail quote text).1) :
    literalTail quote text = (text, []) ∧
      literalTail quote (text ++ '\n' :: behind) =
        (text ++ '\n' :: (literalTail quote behind).1, (literalTail quote behind).2) := by
  fun_induction literalTail quote text with
  | case1 => exact absurd .nil cut
  | case2 => exact ⟨rfl, by simp [literalTail]⟩
  | case3 escaped text taken rest read ih =>
    rw [read] at ih
    obtain ⟨all, further⟩ := ih (mt unescaped_escape.mpr cut)
    cases all
    exact ⟨rfl, by simp only [List.cons_append, literalTail, further]⟩
  | case4 text => exact absurd .nil cut
  | case5 text => exact absurd (.plain plainQuote .nil) cut
  | case6 c text single paired feed other taken rest read ih =>
    have plain := SourceToken.ne_backslash single paired
    rw [read] at ih
    obtain ⟨all, further⟩ := ih (mt (unescaped_cons plain).mpr cut)
    cases all
    refine ⟨rfl, ?_⟩
    rw [List.cons_append, literalTail_cons plain, if_neg feed, if_neg other, further]
    rfl

/-! ### Lexemes before a line feed -/

theorem splitThrough_lineFeed (text behind : List Char) :
    splitThrough ['\n'] (text ++ '\n' :: behind) =
      if '\n' ∈ text then ((splitThrough ['\n'] text).1, (splitThrough ['\n'] text).2 ++ '\n' :: behind)
      else (text ++ ['\n'], behind) := by
  induction text with
  | nil => rfl
  | cons c text ih =>
    by_cases feed : c = '\n'
    · subst feed
      rfl
    · have other (text : List Char) : ¬['\n'] <+: c :: text := by simp [Ne.symm feed]
      rw [List.cons_append, splitThrough_cons (other _),
        splitThrough_cons (other _), ih]
      simp only [List.mem_cons, Ne.symm feed, false_or]
      split <;> rfl

/-- The lexeme is a literal with this quote that ends within an escape. -/
def CutsEscape (quote : Char) (lexeme : Lexeme) : Prop :=
  (quote = '"' ∨ quote = '\'') ∧ ∃ tail, lexeme.text = quote :: tail ∧ ¬Unescaped tail

/-- What a line feed and the text behind it make of the first lexeme of a text: it stays as it is,
or it is a comment that ends with the line feed, or a literal that goes on behind it. -/
inductive MeetsLineFeed (c : Char) (text behind : List Char) : Prop where
  | stays (whole : ∀ quote, ¬(first c text).1.CutsEscape quote)
      (longer : first c (text ++ '\n' :: behind) =
        ((first c text).1, (first c text).2 ++ '\n' :: behind))
  | ends (whole : ∀ quote, ¬(first c text).1.CutsEscape quote) (all : (first c text).2 = [])
      (longer : first c (text ++ '\n' :: behind) = (⟨false, c :: (text ++ ['\n'])⟩, behind))
  | goesOn (cut : (first c text).1.CutsEscape c) (all : (first c text).2 = [])
      (longer : first c (text ++ '\n' :: behind) =
        (⟨false, c :: (text ++ '\n' :: (literalTail c behind).1)⟩, (literalTail c behind).2))

theorem CutsEscape.head {lexeme : Lexeme} (cut : lexeme.CutsEscape quote)
    (text_eq : lexeme.text = c :: text) : c = quote := by
  obtain ⟨-, tail, shape, -⟩ := cut
  exact (List.cons.inj (text_eq.symm.trans shape)).1

/-- The first lexeme where neither a text block nor a block comment opens. -/
theorem first_of_plain (noBlock : ¬(c = '"' ∧ text.take 2 = ['"', '"']))
    (noComment : ¬(c = '/' ∧ text.head? = some '*')) :
    first c text =
      if c = '"' ∨ c = '\'' then (⟨false, c :: (literalTail c text).1⟩, (literalTail c text).2)
      else if c = '/' ∧ text.head? = some '/' then
        (⟨false, c :: (splitThrough ['\n'] text).1⟩, (splitThrough ['\n'] text).2)
      else (⟨false, [c]⟩, text) := by
  rw [first, if_neg noBlock, if_neg noComment]

/-- In a text without their delimiters neither a text block nor a block comment opens, with or
without a line feed behind it. -/
theorem plain_of_not_infix (noComment : ¬['/', '*'] <:+: c :: text)
    (noBlock : ¬['"', '"', '"'] <:+: c :: text) (more : List Char)
    (ends : ∀ d ∈ more.head?, d = '\n') :
    ¬(c = '"' ∧ (text ++ more).take 2 = ['"', '"']) ∧
      ¬(c = '/' ∧ (text ++ more).head? = some '*') := by
  constructor
  · rintro ⟨rfl, quotes⟩
    match text, more with
    | [], [] => simp at quotes
    | [], d :: _ | [d], [] => simp_all
    | [_], d :: _ => simp_all
    | d :: e :: text, _ =>
      obtain ⟨rfl, rfl⟩ : d = '"' ∧ e = '"' := by simpa using quotes
      exact noBlock ⟨[], text, rfl⟩
  · rintro ⟨rfl, star⟩
    match text, more with
    | [], [] => simp at star
    | [], d :: _ => simp_all
    | d :: text, _ =>
      obtain rfl : d = '*' := by simpa using star
      exact noComment ⟨[], text, rfl⟩

theorem first_append_lineFeed (noComment : ¬['/', '*'] <:+: c :: text)
    (noBlock : ¬['"', '"', '"'] <:+: c :: text) (behind : List Char) :
    (first c text).1.isDoc = false ∧ MeetsLineFeed c text behind := by
  obtain ⟨shortBlock, shortComment⟩ : ¬(c = '"' ∧ text.take 2 = ['"', '"']) ∧
      ¬(c = '/' ∧ text.head? = some '*') := by
    simpa using plain_of_not_infix noComment noBlock [] (by simp)
  obtain ⟨longBlock, longComment⟩ :=
    plain_of_not_infix noComment noBlock ('\n' :: behind) (by simp)
  have short := first_of_plain shortBlock shortComment
  have long := first_of_plain longBlock longComment
  by_cases quoted : c = '"' ∨ c = '\''
  · have plain : c ≠ '\\' := by rcases quoted with rfl | rfl <;> decide
    rw [if_pos quoted] at short long
    refine ⟨by rw [short], ?_⟩
    by_cases whole : Unescaped (literalTail c text).1
    · rw [literalTail_of_unescaped behind whole] at long
      refine .stays (fun quote cut => ?_) (by rw [long, short])
      obtain ⟨-, tail, shape, cuts⟩ := cut
      rw [short] at shape
      exact cuts ((List.cons.inj shape).2 ▸ whole)
    · obtain ⟨all, further⟩ := literalTail_of_not_unescaped plain behind whole
      rw [further] at long
      rw [all] at short
      exact .goesOn (by rw [short]; exact ⟨quoted, text, rfl, by rwa [all] at whole⟩) (by rw [short])
        long
  · have uncut (quote : Char) {lexeme : Lexeme} {tail : List Char}
        (shape : lexeme.text = c :: tail) : ¬lexeme.CutsEscape quote := by
      intro cut
      obtain rfl := cut.head shape
      exact quoted cut.1
    rw [if_neg quoted] at short long
    by_cases comment : c = '/' ∧ text.head? = some '/'
    · have comment' : c = '/' ∧ (text ++ '\n' :: behind).head? = some '/' := by
        refine ⟨comment.1, ?_⟩
        obtain ⟨more, rfl⟩ := List.head?_eq_some_iff.mp comment.2
        rfl
      rw [if_pos comment] at short
      rw [if_pos comment', splitThrough_lineFeed] at long
      refine ⟨by rw [short], ?_⟩
      have whole (quote : Char) : ¬(first c text).1.CutsEscape quote :=
        uncut quote (by rw [short])
      split at long
      · exact .stays whole (by rw [long, short])
      · next unbroken =>
        have unsplit : splitBefore? ['\n'] text = none :=
          splitBefore?_eq_none_iff.mpr (mt (List.singleton_infix_iff _ _).mp unbroken)
        exact .ends whole (by simp [short, splitThrough, splitThrough?, unsplit]) long
    · rw [if_neg comment] at short
      have comment' : ¬(c = '/' ∧ (text ++ '\n' :: behind).head? = some '/') := by
        rintro ⟨rfl, slash⟩
        apply comment
        cases text with
        | nil => simp at slash
        | cons d text => exact ⟨rfl, slash⟩
      rw [if_neg comment'] at long
      exact ⟨by rw [short], .stays (fun quote => uncut quote (by rw [short])) (by rw [long, short])⟩

end Lexeme

/-! ### Texts before a line feed -/

/-- The text ends within an escape of a literal with this quote, so a line feed behind it is
escaped. -/
def EndsInEscape (quote : Char) (source : List Char) : Prop :=
  ∃ lexeme, (Lexeme.ofSource source).getLast? = some lexeme ∧ lexeme.CutsEscape quote

theorem not_endsInEscape_nil (quote : Char) : ¬EndsInEscape quote [] := by
  simp [EndsInEscape, Lexeme.ofSource]

theorem endsInEscape_cons_iff {quote c : Char} {text : List Char} :
    EndsInEscape quote (c :: text) ↔
      if (Lexeme.first c text).2 = [] then (Lexeme.first c text).1.CutsEscape quote
      else EndsInEscape quote (Lexeme.first c text).2 := by
  rw [EndsInEscape, Lexeme.ofSource]
  split
  · next all => simp [all, Lexeme.ofSource]
  · next further =>
    obtain ⟨d, rest, shape⟩ := List.exists_cons_of_ne_nil further
    rw [EndsInEscape, shape, Lexeme.ofSource, List.getLast?_cons_cons]

namespace Lexeme

/-- The comments of a text with a line feed and more text behind it, if no comment opens before the
line feed, are those that are found behind the line feed or behind the literal that it is in. -/
theorem docComments_ofSource_append (offset : Nat) {source : List Char}
    (noComment : ¬['/', '*'] <:+: source) (noBlock : ¬['"', '"', '"'] <:+: source)
    (behind : List Char) :
    (∀ quote, EndsInEscape quote source →
      docComments offset (ofSource (source ++ '\n' :: behind)) =
        docComments (offset + (width source + 1 + width (literalTail quote behind).1))
          (ofSource (literalTail quote behind).2)) ∧
    ((∀ quote, ¬EndsInEscape quote source) →
      docComments offset (ofSource (source ++ '\n' :: behind)) =
        docComments (offset + (width source + 1)) (ofSource behind)) := by
  fun_induction ofSource source generalizing offset with
  | case1 =>
    refine ⟨fun quote escaped => absurd escaped (not_endsInEscape_nil quote), fun _ => ?_⟩
    rw [List.nil_append, ofSource, show first '\n' behind = (⟨false, ['\n']⟩, behind) from rfl]
    rfl
  | case2 c text ih =>
    have parts := append_first c text
    have inside : (first c text).2 <:+: c :: text := ⟨(first c text).1.text, [], by simpa using parts⟩
    have size := congrArg width parts
    rw [width_append] at size
    have feedSize : Char.utf8Size '\n' = 1 := rfl
    obtain ⟨noDoc, meets⟩ := first_append_lineFeed noComment noBlock behind
    simp only [endsInEscape_cons_iff]
    rw [List.cons_append, ofSource]
    cases meets with
    | stays whole longer =>
      obtain ⟨escaped, plain⟩ := ih (offset + width (first c text).1.text)
        (fun here => noComment (here.trans inside)) fun here => noBlock (here.trans inside)
      have same : docComments offset ((first c (text ++ '\n' :: behind)).1 ::
          ofSource (first c (text ++ '\n' :: behind)).2) =
          docComments (offset + width (first c text).1.text)
            (ofSource ((first c text).2 ++ '\n' :: behind)) := by
        rw [longer, docComments, if_neg (by simp [noDoc])]
      have ends (quote : Char) : (if (first c text).2 = [] then (first c text).1.CutsEscape quote
          else EndsInEscape quote (first c text).2) ↔ EndsInEscape quote (first c text).2 := by
        split
        · next all => simp [all, whole, not_endsInEscape_nil]
        · exact Iff.rfl
      simp only [ends, same, ← size]
      simpa only [Nat.add_assoc] using And.intro escaped plain
    | ends whole all longer =>
      simp only [if_pos all, whole]
      refine ⟨fun _ => False.elim, fun _ => ?_⟩
      rw [longer, docComments, if_neg (by simp)]
      simp [Nat.add_assoc, feedSize]
    | goesOn cut all longer =>
      simp only [if_pos all]
      refine ⟨fun quote escaped => ?_, fun none => absurd cut (none c)⟩
      obtain ⟨-, tail, shape, -⟩ := cut
      obtain rfl := escaped.head shape
      rw [longer, docComments, if_neg (by simp)]
      simp [Nat.add_assoc, feedSize]

end Lexeme

theorem getLast?_of_not_unescaped {text : List Char} (cut : ¬Unescaped text) :
    text.getLast? = some '\\' := by
  match text with
  | [] => exact absurd .nil cut
  | [c] =>
    by_cases backslash : c = '\\'
    · rw [backslash]
      rfl
    · exact absurd (.plain backslash .nil) cut
  | c :: d :: text =>
    rw [List.getLast?_cons_cons]
    by_cases backslash : c = '\\'
    · subst backslash
      have later := getLast?_of_not_unescaped (mt unescaped_escape.mpr cut)
      rw [List.getLast?_cons, later]
      rfl
    · exact getLast?_of_not_unescaped (mt (unescaped_cons backslash).mpr cut)

/-- A text that ends within an escape ends with a backslash. -/
theorem EndsInEscape.getLast? {quote : Char} {source : List Char}
    (escaped : EndsInEscape quote source) : source.getLast? = some '\\' := by
  obtain ⟨lexeme, last, -, tail, shape, cut⟩ := escaped
  obtain ⟨front, lexemes⟩ := List.getLast?_eq_some_iff.mp last
  have ends := getLast?_of_not_unescaped cut
  rw [← Lexeme.flatMap_text_ofSource source, lexemes, List.flatMap_append, List.flatMap_singleton,
    shape, List.append_cons, List.getLast?_append, ends]
  rfl

/-- Let a text without the delimiters of block comments and text blocks stand before a line feed. If
it does not end with a backslash, the comments behind the line feed are found as if nothing stood
before it. This is so for all texts behind the line feed exactly if the text before it does not end
within an escape of a literal; if it does, the comments are those behind the end of that literal. -/
theorem docComments_behind_lineFeed_iff {source : List Char}
    (noComment : ¬['/', '*'] <:+: source) (noBlock : ¬['"', '"', '"'] <:+: source) :
    (source.getLast? ≠ some '\\' → ∀ behind, docComments (source ++ '\n' :: behind) =
      (docComments behind).map (Fragment.shift (width source + 1))) ∧
    ((∀ behind, docComments (source ++ '\n' :: behind) =
        (docComments behind).map (Fragment.shift (width source + 1))) ↔
      ∀ quote, ¬EndsInEscape quote source) ∧
    ∀ quote, EndsInEscape quote source → ∀ behind, docComments (source ++ '\n' :: behind) =
      (docComments (Lexeme.literalTail quote behind).2).map
        (Fragment.shift (width source + 1 + width (Lexeme.literalTail quote behind).1)) := by
  have found (behind : List Char) :=
    Lexeme.docComments_ofSource_append 0 noComment noBlock behind
  have unhidden (whole : ∀ quote, ¬EndsInEscape quote source) (behind : List Char) :
      docComments (source ++ '\n' :: behind) =
        (docComments behind).map (Fragment.shift (width source + 1)) := by
    rw [docComments, (found behind).2 whole, docComments, Lexeme.map_shift_docComments,
      Nat.add_comm]
  have hidden (quote : Char) (escaped : EndsInEscape quote source) (behind : List Char) :
      docComments (source ++ '\n' :: behind) =
        (docComments (Lexeme.literalTail quote behind).2).map
          (Fragment.shift (width source + 1 + width (Lexeme.literalTail quote behind).1)) := by
    rw [docComments, (found behind).1 quote escaped, docComments, Lexeme.map_shift_docComments,
      Nat.add_comm]
  refine ⟨fun plain => unhidden fun quote escaped => plain escaped.getLast?,
    ⟨fun always quote escaped => ?_, unhidden⟩, hidden⟩
  -- The literal takes a comment with it that has no quote in it.
  have none := hidden quote escaped "/***/".toList
  have kept := always "/***/".toList
  obtain ⟨lexeme, -, quoted, -⟩ := escaped
  have all : Lexeme.literalTail quote "/***/".toList = ("/***/".toList, []) := by
    rcases quoted with rfl | rfl <;> rfl
  rw [none, all] at kept
  have nothing : docComments [] = [] := by simp [docComments, Lexeme.ofSource, Lexeme.docComments]
  have comment : docComments "/***/".toList = [⟨0, "/***/".toList⟩] := by decide +kernel
  rw [nothing, comment] at kept
  cases kept

/-- The literal in the first line ends with it. The one in the second line takes the line feed and
the first comment behind it, up to the quote. -/
theorem docComments_behind_lineFeed_iff_backslash :
    let source := "'a\ns = \"\\".toList
    let behind := " /** b */ \" /** c */".toList
    ¬['/', '*'] <:+: source ∧ ¬['"', '"', '"'] <:+: source ∧ EndsInEscape '"' source ∧
      docComments ("'a".toList ++ '\n' :: behind) = [⟨4, "/** b */".toList⟩] ∧
      docComments (source ++ '\n' :: behind) = [⟨22, "/** c */".toList⟩] := by
  intro source behind
  have noComment : ¬['/', '*'] <:+: source := by decide +kernel
  have noBlock : ¬['"', '"', '"'] <:+: source := by decide +kernel
  have escaped : EndsInEscape '"' source := by
    refine ⟨⟨false, "\"\\".toList⟩, by decide +kernel, .inl rfl, ['\\'], rfl, ?_⟩
    rintro (_ | ⟨other, -⟩)
    exact other rfl
  obtain ⟨plain, -, -⟩ := @docComments_behind_lineFeed_iff "'a".toList
    (by decide +kernel) (by decide +kernel)
  obtain ⟨-, -, hidden⟩ := docComments_behind_lineFeed_iff noComment noBlock
  refine ⟨noComment, noBlock, escaped, ?_, ?_⟩
  · rw [plain (by decide) behind]
    decide +kernel
  · rw [hidden '"' escaped behind]
    decide +kernel

end CommentProse
