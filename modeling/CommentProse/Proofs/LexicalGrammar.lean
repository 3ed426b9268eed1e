import CommentProse.Proofs.Discovery
import CommentProse.Proofs.Text.Search
import Mathlib.Order.Bounds.Image

/-! # The tokens of a source

What the pieces of a source are is laid down here as a grammar and not as a way to read: which kinds
of tokens there are, in which order they are tried, and that a token ends with the first closing
delimiter that it can end with. A delimiter in quotes does not close when it is escaped. The lexemes
of a source are tokens of the grammar (`SourceToken.exists_tokens_of_ofSource`), and no source has
tokens in two ways (`SourceToken.Tokens.unique`), so the comments that are found are the
documentation comments of the grammar (`SourceToken.docComments_are_tokens`).
-/

namespace CommentProse

/-! ### The grammar -/

/-- A text that cuts off no escape, which is a backslash with the next character. So what stands
behind the text is not escaped. -/
inductive Unescaped : List Char → Prop where
  | nil : Unescaped []
  | plain {c : Char} {text : List Char} (plain : c ≠ '\\') (later : Unescaped text) :
      Unescaped (c :: text)
  | escape (c : Char) {text : List Char} (later : Unescaped text) : Unescaped ('\\' :: c :: text)

/-- How far an admitted body with the closing delimiter behind it can go in a text. -/
def closings (closing : List Char) (admits : List Char → Prop) (text : List Char) : Set Nat :=
  {size | ∃ body rest, text = body ++ (closing ++ rest) ∧ admits body ∧
    size = body.length + closing.length}

/-- The least of the numbers, or `otherwise` if there are none. -/
def LeastOr (numbers : Set Nat) (otherwise number : Nat) : Prop :=
  IsLeast numbers number ∨ numbers = ∅ ∧ number = otherwise

namespace SourceToken

/-- What a token is. -/
inductive Kind where
  | textBlock
  /-- A string or character literal, by its quote. -/
  | literal (quote : Char)
  | lineComment
  | docComment
  | blockComment
  /-- A character that belongs to no other token. -/
  | other
deriving DecidableEq, Repr

namespace Kind

/-- The kinds in the order in which they are tried. -/
def all : List Kind :=
  [.textBlock, .literal '"', .literal '\'', .lineComment, .docComment, .blockComment, .other]

def opening : Kind → List Char
  | .textBlock => ['"', '"', '"']
  | .literal quote => [quote]
  | .lineComment => ['/', '/']
  | .docComment => opener
  | .blockComment => ['/', '*']
  | .other => []

/-- Whether a token of this kind can begin a text. -/
def applies (text : List Char) : Kind → Bool
  | .docComment => opener.isPrefixOf text && !(opener ++ ['/']).isPrefixOf text
  | .other => !text.isEmpty
  | kind => kind.opening.isPrefixOf text

/-- The kind of the token that begins a text: the first that applies. -/
def first? (text : List Char) : Option Kind := all.find? (applies text)

def closing : Kind → List Char
  | .textBlock => ['"', '"', '"']
  | .literal quote => [quote]
  | .lineComment => ['\n']
  | .docComment | .blockComment => closer
  | .other => []

/-- What can stand between the delimiters. A literal stays on its line. -/
def Admits : Kind → List Char → Prop
  | .textBlock, body => Unescaped body
  | .literal _, body => Unescaped body ∧ '\n' ∉ body
  | .lineComment, _ | .docComment, _ | .blockComment, _ => True
  | .other, body => body.length = 1

/-- How far a token goes that nothing closes: a literal to the end of its line, any other to the end
of the text. -/
def unclosed (text : List Char) : Kind → Nat
  | .literal _ => (text.takeWhile (· ≠ '\n')).length
  | _ => text.length

/-- The first characters of a text, `size` in number, are a token of this kind: its opening
delimiter and what follows through the first closing delimiter. -/
def Extent (kind : Kind) (text : List Char) (size : Nat) : Prop :=
  ∃ behind inner, text = kind.opening ++ behind ∧ size = kind.opening.length + inner ∧
    LeastOr (closings kind.closing kind.Admits behind) (kind.unclosed behind) inner

end Kind

end SourceToken

/-- A token in its place. -/
structure SourceToken where
  kind : SourceToken.Kind
  fragment : Fragment

namespace SourceToken

/-- The tokens of a text that begins at `offset`, from left to right. -/
inductive Tokens : Nat → List Char → List SourceToken → Prop where
  | nil (offset : Nat) : Tokens offset [] []
  | cons {offset : Nat} {text : List Char} {kind : Kind} {size : Nat} {tokens : List SourceToken}
      (applies : Kind.first? text = some kind) (extent : kind.Extent text size)
      (later : Tokens (offset + width (text.take size)) (text.drop size) tokens) :
      Tokens offset text (⟨kind, ⟨offset, text.take size⟩⟩ :: tokens)

/-- The documentation comments among tokens. -/
def docComments (tokens : List SourceToken) : List Fragment :=
  (tokens.filter fun token => token.kind = .docComment).map fragment

end SourceToken

/-! ### No source has tokens in two ways -/

theorem LeastOr.unique {numbers : Set Nat} {otherwise number other : Nat}
    (first : LeastOr numbers otherwise number) (second : LeastOr numbers otherwise other) :
    number = other := by
  rcases first with least | ⟨rfl, rfl⟩
  · rcases second with least' | ⟨rfl, -⟩
    · exact least.unique least'
    · exact absurd least.1 (Set.notMem_empty _)
  · rcases second with least' | ⟨-, rfl⟩
    · exact absurd least'.1 (Set.notMem_empty _)
    · rfl

namespace SourceToken

theorem Kind.Extent.unique {kind : Kind} {text : List Char} {size other : Nat}
    (first : kind.Extent text size) (second : kind.Extent text other) : size = other := by
  obtain ⟨behind, inner, rfl, rfl, ends⟩ := first
  obtain ⟨behind', inner', same, rfl, ends'⟩ := second
  obtain rfl := List.append_cancel_left same
  rw [ends.unique ends']

/-- A text has no two lists of tokens. -/
theorem Tokens.unique {offset : Nat} {text : List Char} {tokens others : List SourceToken}
    (first : Tokens offset text tokens) (second : Tokens offset text others) : tokens = others := by
  induction first generalizing others with
  | nil =>
    cases second with
    | nil => rfl
    | cons applies => simp [Kind.first?, Kind.all, Kind.applies, Kind.opening, opener] at applies
  | cons applies extent _ ih =>
    cases second with
    | nil => simp [Kind.first?, Kind.all, Kind.applies, Kind.opening, opener] at applies
    | cons applies' extent' later' =>
      obtain rfl := Option.some.inj (applies.symm.trans applies')
      obtain rfl := extent.unique extent'
      rw [ih later']

end SourceToken

/-! ### Where tokens are closed -/

theorem LeastOr.shift {numbers : Set Nat} {otherwise number : Nat} (count : Nat)
    (least : LeastOr numbers otherwise number) :
    LeastOr ((count + ·) '' numbers) (count + otherwise) (count + number) := by
  rcases least with least | ⟨rfl, rfl⟩
  · have monotone : Monotone (count + ·) := fun _ _ le => Nat.add_le_add_left le count
    exact .inl (monotone.map_isLeast least)
  · exact .inr ⟨Set.image_empty _, rfl⟩

variable {closing : List Char} {admits : List Char → Prop}

/-- A front that every body goes through shifts the closings. -/
theorem closings_append (front : List Char) {text : List Char}
    (keeps : ∀ body, admits (front ++ body) ↔ admits body)
    (through : ∀ body rest, front ++ text = body ++ (closing ++ rest) → admits body →
      front <+: body) :
    closings closing admits (front ++ text) =
      (front.length + ·) '' closings closing admits text := by
  ext size
  constructor
  · rintro ⟨body, rest, whole, admitted, rfl⟩
    obtain ⟨inner, rfl⟩ := through body rest whole admitted
    refine ⟨inner.length + closing.length, ⟨inner, rest, ?_, (keeps inner).mp admitted, rfl⟩, ?_⟩
    · simpa using whole
    · simp [Nat.add_assoc]
  · rintro ⟨_, ⟨body, rest, rfl, admitted, rfl⟩, rfl⟩
    exact ⟨front ++ body, rest, by simp, (keeps body).mpr admitted, by simp [Nat.add_assoc]⟩

/-- A text that begins with the closing delimiter is closed there. -/
theorem leastOr_closings_of_prefix {text : List Char} (otherwise : Nat) (admitted : admits [])
    (starts : closing <+: text) :
    LeastOr (closings closing admits text) otherwise closing.length := by
  obtain ⟨rest, rfl⟩ := starts
  refine .inl ⟨⟨[], rest, rfl, admitted, by simp⟩, ?_⟩
  rintro size ⟨body, rest, -, -, rfl⟩
  exact Nat.le_add_left ..

theorem splitThrough_cons {delimiter text : List Char} {c : Char}
    (other : ¬delimiter <+: c :: text) :
    splitThrough delimiter (c :: text) =
      (c :: (splitThrough delimiter text).1, (splitThrough delimiter text).2) := by
  rw [← List.isPrefixOf_iff_prefix] at other
  cases split : splitBefore? delimiter text <;>
    simp [splitThrough, splitThrough?, splitBefore?, other, split]

/-- A search finds the first closing delimiter. -/
theorem leastOr_splitThrough {delimiter : List Char} (text : List Char) :
    LeastOr (closings delimiter (fun _ => True) text) text.length
      (splitThrough delimiter text).1.length := by
  cases split : splitBefore? delimiter text with
  | none =>
    have absent := splitBefore?_eq_none_iff.mp split
    refine .inr ⟨Set.eq_empty_iff_forall_notMem.mpr ?_,
      by simp [splitThrough, splitThrough?, split]⟩
    rintro size ⟨body, rest, rfl, -, -⟩
    exact absent ⟨body, rest, by simp⟩
  | some halves =>
    obtain ⟨before, after⟩ := halves
    obtain ⟨rfl, ⟨rest, rfl⟩, least⟩ := splitBefore?_eq_some_iff.mp split
    have taken :
        (splitThrough delimiter (before ++ (delimiter ++ rest))).1 = before ++ delimiter := by
      simp [splitThrough, splitThrough?, split]
    simp only [taken, List.length_append]
    refine .inl ⟨⟨before, rest, rfl, trivial, rfl⟩, ?_⟩
    rintro size ⟨body, rest', whole, -, rfl⟩
    have := least body (delimiter ++ rest') whole.symm (List.prefix_append ..)
    omega

theorem unescaped_cons {c : Char} {text : List Char} (plain : c ≠ '\\') :
    Unescaped (c :: text) ↔ Unescaped text := by
  constructor
  · intro unescaped
    cases unescaped with
    | plain _ later => exact later
    | escape => exact absurd rfl plain
  · exact .plain plain

theorem unescaped_escape {c : Char} {text : List Char} :
    Unescaped ('\\' :: c :: text) ↔ Unescaped text := by
  constructor
  · intro unescaped
    cases unescaped with
    | plain other _ => exact absurd rfl other
    | escape _ later => exact later
  · exact .escape c

/-- A delimiter that does not begin with a backslash closes nothing inside an escape. -/
theorem escape_prefix_of_unescaped {c : Char} {text body rest : List Char}
    (visible : closing.head? ≠ some '\\') (nonempty : closing ≠ [])
    (whole : '\\' :: c :: text = body ++ (closing ++ rest)) (unescaped : Unescaped body) :
    ['\\', c] <+: body := by
  cases unescaped with
  | nil =>
    cases closing with
    | nil => exact absurd rfl nonempty
    | cons d closing => exact absurd (congrArg some (List.cons.inj whole).1.symm) visible
  | plain other _ => exact absurd (List.cons.inj whole).1.symm other
  | escape d later =>
    obtain ⟨rfl, -⟩ := List.cons.inj (List.cons.inj whole).2
    exact List.prefix_append ..

theorem singleton_prefix_of_not_prefix {c : Char} {text body rest : List Char}
    (other : ¬closing <+: c :: text) (whole : c :: text = body ++ (closing ++ rest)) :
    [c] <+: body := by
  cases body with
  | nil => exact absurd ⟨rest, whole.symm⟩ other
  | cons d body =>
    obtain ⟨rfl, -⟩ := List.cons.inj whole
    exact List.prefix_append ..

namespace SourceToken

open Lexeme

variable {quote : Char}

theorem closings_escape {c : Char} {text : List Char} (visible : closing.head? ≠ some '\\')
    (nonempty : closing ≠ []) (keeps : ∀ body, admits ('\\' :: c :: body) ↔ admits body)
    (unescaped : ∀ body, admits body → Unescaped body) :
    closings closing admits ('\\' :: c :: text) = (2 + ·) '' closings closing admits text :=
  closings_append ['\\', c] keeps fun _ _ whole admitted =>
    escape_prefix_of_unescaped visible nonempty whole (unescaped _ admitted)

theorem closings_cons {c : Char} {text : List Char} (other : ¬closing <+: c :: text)
    (keeps : ∀ body, admits (c :: body) ↔ admits body) :
    closings closing admits (c :: text) = (1 + ·) '' closings closing admits text :=
  closings_append [c] keeps fun _ _ whole _ => singleton_prefix_of_not_prefix other whole

theorem closings_nil (nonempty : closing ≠ []) : closings closing admits [] = ∅ := by
  refine Set.eq_empty_iff_forall_notMem.mpr ?_
  rintro size ⟨body, rest, whole, -, -⟩
  simp_all

theorem closings_backslash (visible : closing.head? ≠ some '\\') (nonempty : closing ≠ [])
    (unescaped : ∀ body, admits body → Unescaped body) :
    closings closing admits ['\\'] = ∅ := by
  refine Set.eq_empty_iff_forall_notMem.mpr ?_
  rintro size ⟨body, rest, whole, admitted, -⟩
  cases unescaped body admitted with
  | nil =>
    cases closing with
    | nil => exact nonempty rfl
    | cons d closing => exact visible (congrArg some (List.cons.inj whole).1.symm)
  | plain other _ => exact absurd (List.cons.inj whole).1.symm other
  | escape c later => cases (List.cons.inj whole).2

theorem literal_admits_cons {c : Char} (plain : c ≠ '\\') (unbroken : c ≠ '\n') (body : List Char) :
    (Kind.literal quote).Admits (c :: body) ↔ (Kind.literal quote).Admits body := by
  simp [Kind.Admits, unescaped_cons plain, unbroken.symm]

theorem literal_admits_escape {c : Char} (unbroken : c ≠ '\n') (body : List Char) :
    (Kind.literal quote).Admits ('\\' :: c :: body) ↔ (Kind.literal quote).Admits body := by
  simp [Kind.Admits, unescaped_escape, unbroken.symm]

theorem ne_backslash {c : Char} {text : List Char} (single : c = '\\' → text = [] → False)
    (paired : ∀ (d : Char) (more : List Char), c = '\\' → text = d :: more → False) : c ≠ '\\' := by
  intro backslash
  cases text with
  | nil => exact single backslash rfl
  | cons d more => exact paired d more backslash rfl

theorem not_infix_of_cons {pattern text : List Char} {c : Char} (absent : ¬pattern <:+: c :: text) :
    ¬pattern <:+: text :=
  fun inside => absent (inside.trans (List.suffix_cons c text).isInfix)

/-- A literal is read through its closing quote, or to the end of its line. -/
theorem leastOr_literalTail (plain : quote ≠ '\\') (visible : quote ≠ '\n')
    {text : List Char} (whole : ¬['\\', '\n'] <:+: text) :
    LeastOr (closings [quote] (Kind.literal quote).Admits text) ((Kind.literal quote).unclosed text)
      (literalTail quote text).1.length := by
  have unescaped (body : List Char) (admitted : (Kind.literal quote).Admits body) :
      Unescaped body := admitted.1
  have starts : ([quote] : List Char).head? ≠ some '\\' := by simpa using plain
  fun_induction literalTail quote text with
  | case1 => exact .inr ⟨closings_nil (by simp), rfl⟩
  | case2 => exact .inr ⟨closings_backslash starts (by simp) unescaped, rfl⟩
  | case3 escaped text taken rest read ih =>
    have unbroken : escaped ≠ '\n' := by
      rintro rfl
      exact whole ⟨[], text, rfl⟩
    have shifted := (ih (not_infix_of_cons (not_infix_of_cons whole))).shift 2
    rw [closings_escape starts (by simp) (literal_admits_escape unbroken) unescaped]
    simpa [Kind.unclosed, unbroken, read, Nat.add_comm 2] using shifted
  | case4 text =>
    refine .inr ⟨Set.eq_empty_iff_forall_notMem.mpr ?_, by simp [Kind.unclosed]⟩
    rintro size ⟨body, rest, cut, admitted, -⟩
    cases body with
    | nil => exact visible (List.cons.inj cut).1.symm
    | cons c body => exact admitted.2 (by rw [← (List.cons.inj cut).1]; exact List.mem_cons_self)
  | case5 text =>
    exact leastOr_closings_of_prefix _ ⟨.nil, by simp⟩ ⟨text, rfl⟩
  | case6 c text single paired feed different taken rest read ih =>
    have ordinary := ne_backslash single paired
    have shifted := (ih (not_infix_of_cons whole)).shift 1
    have other : ¬[quote] <+: c :: text := by
      rintro ⟨rest', whole'⟩
      exact different (List.cons.inj whole').1.symm
    rw [closings_cons other (literal_admits_cons ordinary feed)]
    simpa [Kind.unclosed, feed, read, Nat.add_comm 1] using shifted

/-- A text block is read through its closing quotes. -/
theorem leastOr_textBlockTail (text : List Char) :
    LeastOr (closings ['"', '"', '"'] Unescaped text) text.length
      (textBlockTail text).1.length := by
  have starts : (['"', '"', '"'] : List Char).head? ≠ some '\\' := by decide
  fun_induction textBlockTail text with
  | case1 => exact .inr ⟨closings_nil (by simp), rfl⟩
  | case2 => exact .inr ⟨closings_backslash starts (by simp) fun _ => id, rfl⟩
  | case3 escaped text taken rest read ih =>
    have shifted := ih.shift 2
    rw [closings_escape starts (by simp) (fun _ => unescaped_escape) fun _ => id]
    simpa [read, Nat.add_comm 2] using shifted
  | case4 text => exact leastOr_closings_of_prefix _ .nil ⟨text, rfl⟩
  | case5 c text single paired different taken rest read ih =>
    have shifted := ih.shift 1
    have other : ¬['"', '"', '"'] <+: c :: text := by
      rintro ⟨rest', whole⟩
      obtain ⟨quote_eq, rest_eq⟩ := List.cons.inj whole
      exact different rest' quote_eq.symm rest_eq.symm
    rw [closings_cons other fun _ => unescaped_cons (ne_backslash single paired)]
    simpa [read, Nat.add_comm 1] using shifted

/-! ### Lexemes are tokens -/

private theorem find?_cons_ite {α : Type} (p : α → Bool) (a : α) (list : List α) :
    (a :: list).find? p = if p a = true then some a else list.find? p := by
  cases holds : p a <;> simp [holds]

/-- The first kind that applies is decided by at most four characters. -/
theorem Kind.first?_cons (c : Char) (text : List Char) :
    first? (c :: text) =
      if c = '"' ∧ text.take 2 = ['"', '"'] then some .textBlock
      else if c = '"' ∨ c = '\'' then some (.literal c)
      else if c = '/' ∧ text.head? = some '/' then some .lineComment
      else if c = '/' ∧ text.head? = some '*' then
        if (text.drop 1).head? = some '*' ∧ (text.drop 2).head? ≠ some '/' then some .docComment
        else some .blockComment
      else some .other := by
  rcases text with - | ⟨d, - | ⟨e, - | ⟨f, text⟩⟩⟩ <;>
    simp only [first?, all, find?_cons_ite, applies, opening, opener, List.cons_append,
      List.nil_append, List.isPrefixOf, List.take, List.drop, List.head?_nil, List.head?_cons,
      List.isEmpty] <;> grind

/-- The lexeme that begins a text is a token of this kind. -/
structure IsTokenOf (kind : Kind) (text : List Char) (lexeme : Lexeme) : Prop where
  applies : Kind.first? text = some kind
  extent : kind.Extent text lexeme.text.length
  isDoc : lexeme.isDoc = true ↔ kind = .docComment

theorem isTokenOf_blockComment (text : List Char) :
    ∃ kind, IsTokenOf kind ('/' :: '*' :: text) (blockComment text).1 := by
  have kinds : Kind.first? ('/' :: '*' :: text) =
      if text.head? = some '*' ∧ (text.drop 1).head? ≠ some '/' then some .docComment
      else some .blockComment := by
    rw [Kind.first?_cons]
    rfl
  rw [blockComment]
  split
  · next starred =>
    rw [if_pos starred] at kinds
    obtain ⟨behind, rfl⟩ := List.head?_eq_some_iff.mp starred.1
    refine ⟨.docComment, kinds, ?_, by simp⟩
    refine ⟨behind, _, rfl, ?_, leastOr_splitThrough behind⟩
    simp only [Kind.opening, Kind.closing, opener, List.length_cons, List.length_nil,
      List.drop_one, List.tail_cons]
    omega
  · next starless =>
    rw [if_neg starless] at kinds
    refine ⟨.blockComment, kinds, ?_, by simp⟩
    refine ⟨text, _, rfl, ?_, leastOr_splitThrough text⟩
    simp only [Kind.opening, Kind.closing, List.length_cons, List.length_nil]
    omega

/-- Where no line feed is escaped, the first lexeme of a text is a token. -/
theorem isTokenOf_first {c : Char} {text : List Char} (whole : ¬['\\', '\n'] <:+: c :: text) :
    ∃ kind, IsTokenOf kind (c :: text) (first c text).1 := by
  have kinds := Kind.first?_cons c text
  rw [first]
  split
  · next quotes =>
    rw [if_pos quotes] at kinds
    obtain ⟨rfl, quotes⟩ := quotes
    obtain ⟨behind, rfl⟩ : ∃ behind, text = '"' :: '"' :: behind :=
      ⟨text.drop 2, by rw [← List.take_append_drop 2 text, quotes]; simp⟩
    refine ⟨.textBlock, kinds, ⟨behind, _, rfl, ?_, leastOr_textBlockTail behind⟩, by simp⟩
    simp only [Kind.opening, List.length_cons, List.length_nil, List.drop_succ_cons,
      List.drop_zero]
    omega
  · next noBlock =>
    rw [if_neg noBlock] at kinds
    split
    · next quoted =>
      rw [if_pos quoted] at kinds
      have ordinary : c ≠ '\\' ∧ c ≠ '\n' := by rcases quoted with rfl | rfl <;> decide
      refine ⟨.literal c, kinds, ⟨text, _, rfl, ?_, leastOr_literalTail ordinary.1 ordinary.2
        (not_infix_of_cons whole)⟩, by simp⟩
      simp only [Kind.opening, List.length_cons, List.length_nil]
      omega
    · next noLiteral =>
      rw [if_neg noLiteral] at kinds
      split
      · next slashes =>
        rw [if_pos slashes] at kinds
        obtain ⟨rfl, slash⟩ := slashes
        obtain ⟨behind, rfl⟩ := List.head?_eq_some_iff.mp slash
        refine ⟨.lineComment, kinds, ⟨behind, _, rfl, ?_, leastOr_splitThrough behind⟩, by simp⟩
        rw [splitThrough_cons (by simp)]
        simp only [Kind.opening, Kind.closing, List.length_cons, List.length_nil]
        omega
      · next noLine =>
        rw [if_neg noLine] at kinds
        split
        · next starred =>
          obtain ⟨rfl, star⟩ := starred
          obtain ⟨behind, rfl⟩ := List.head?_eq_some_iff.mp star
          exact isTokenOf_blockComment behind
        · next noComment =>
          rw [if_neg noComment] at kinds
          refine ⟨.other, kinds, ⟨c :: text, 1, rfl, rfl, .inl ⟨⟨[c], text, rfl, rfl, rfl⟩, ?_⟩⟩,
            by simp⟩
          rintro size ⟨body, rest, -, single, rfl⟩
          exact Nat.le_of_eq single.symm

/-- The lexemes of a source in which no line feed is escaped are its tokens. -/
theorem exists_tokens_of_ofSource (offset : Nat) {source : List Char}
    (whole : ¬['\\', '\n'] <:+: source) :
    ∃ tokens, Tokens offset source tokens ∧
      docComments tokens = Lexeme.docComments offset (ofSource source) := by
  fun_induction ofSource source generalizing offset with
  | case1 => exact ⟨[], .nil offset, rfl⟩
  | case2 c source ih =>
    obtain ⟨kind, token⟩ := isTokenOf_first whole
    have parts := append_first c source
    have taken : (c :: source).take (first c source).1.text.length = (first c source).1.text := by
      rw [← parts, List.take_left]
    have rest : (c :: source).drop (first c source).1.text.length = (first c source).2 := by
      rw [← parts, List.drop_left]
    obtain ⟨tokens, later, same⟩ := ih (offset + width (first c source).1.text)
      fun inside => whole (inside.trans ⟨(first c source).1.text, [], by simpa using parts⟩)
    refine ⟨⟨kind, ⟨offset, _⟩⟩ :: tokens, .cons token.applies token.extent ?_, ?_⟩
    · rw [taken, rest]
      exact later
    · rw [Lexeme.docComments, ← same, taken]
      by_cases doc : (first c source).1.isDoc = true
      · simp [docComments, doc, token.isDoc.mp doc]
      · simp [docComments, doc, mt token.isDoc.mpr doc]

/-- In a source in which no line feed is escaped, the comments that are found are its documentation
comments: the source has tokens in exactly one way, and these are the ones among them, with their
offsets and in their order. -/
theorem docComments_are_tokens {source : List Char} (whole : ¬['\\', '\n'] <:+: source) :
    (∃! tokens, Tokens 0 source tokens) ∧
      ∀ tokens, Tokens 0 source tokens → CommentProse.docComments source = docComments tokens := by
  obtain ⟨tokens, derived, same⟩ := exists_tokens_of_ofSource 0 whole
  refine ⟨⟨tokens, derived, fun others derived' => derived'.unique derived⟩, ?_⟩
  intro others derived'
  rw [derived'.unique derived, same, CommentProse.docComments]

/-- An escaped quote and an opener in a literal, an empty block comment, and a comment that is left
open. -/
theorem docComments_are_tokens_behind_literal :
    ¬['\\', '\n'] <:+: "\"\\\"/**\" /**/ /***/ /** é".toList ∧
      (∃! tokens, Tokens 0 "\"\\\"/**\" /**/ /***/ /** é".toList tokens) ∧
      ∀ tokens, Tokens 0 "\"\\\"/**\" /**/ /***/ /** é".toList tokens →
        docComments tokens = [⟨13, "/***/".toList⟩, ⟨19, "/** é".toList⟩] := by
  have whole : ¬['\\', '\n'] <:+: "\"\\\"/**\" /**/ /***/ /** é".toList := by decide +kernel
  obtain ⟨unique, found⟩ := docComments_are_tokens whole
  refine ⟨whole, unique, fun tokens derived => ?_⟩
  rw [← found tokens derived]
  decide +kernel

end SourceToken

end CommentProse
