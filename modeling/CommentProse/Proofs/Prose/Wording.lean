import CommentProse.Prose.Passage
import CommentProse.Proofs.Prose.Passages

/-! # The wording of passages

What a passage says does not depend on where its parts stand in the source. `Wording` is a draft
without its provenance, and `Word` an item without its place; a draft's wording after an item is
that of the wording before and the item's word (`Draft.wording_extend`). `Wording.run` works off the
words of a section from front to back and gives out a text at every division, so a section can be
cut anywhere; the texts of its passages are those that the run gives out
(`ProseItem.map_fst_passages`).
-/

namespace CommentProse

/-- An item of the prose without its place. -/
inductive Word where
  | text (chars : List Char)
  | lineEnd
  | division
deriving DecidableEq, Repr

def ProseItem.word : ProseItem → Word
  | .text fragment => .text fragment.text
  | .lineEnd _ => .lineEnd
  | .division => .division

/-- A draft without its provenance. -/
structure Wording where
  text : List Char
  /-- Whether a space is to join the next text. -/
  due : Bool
deriving DecidableEq, Repr

namespace Wording

def empty : Wording := ⟨[], false⟩

/-- Whether blanks at the start of the next text are dropped. -/
def absorbsBlanks (wording : Wording) : Bool :=
  wording.text.isEmpty || wording.due || (wording.text.getLast?.map isBlank).getD false

/-- The text with the space that joins it to the next one, if one is due. -/
def joined (wording : Wording) : List Char :=
  if wording.due then wording.text ++ [' '] else wording.text

def append (chars : List Char) (wording : Wording) : Wording :=
  let visible := if wording.absorbsBlanks then chars.dropWhile isBlank else chars
  if visible.isEmpty then wording else ⟨wording.joined ++ visible, false⟩

def endLine (wording : Wording) : Wording :=
  if wording.text.isEmpty || wording.due then wording else ⟨trimEnd wording.text, true⟩

/-- The text that is given out when the wording ends. -/
def finish (wording : Wording) : List (List Char) :=
  if (trimEnd wording.text).isEmpty then [] else [trimEnd wording.text]

/-- What one more word makes of the wording, and the text that is given out. -/
def step (wording : Wording) : Word → List (List Char) × Wording
  | .text chars => ([], wording.append chars)
  | .lineEnd => ([], wording.endLine)
  | .division => (wording.finish, empty)

/-- Works off words: the texts that are given out on the way, and the wording in the end. -/
def run (wording : Wording) : List Word → List (List Char) × Wording
  | [] => ([], wording)
  | word :: words =>
    let (texts, next) := wording.step word
    let (later, last) := next.run words
    (texts ++ later, last)

/-- The texts that words make up behind a wording. -/
def texts (wording : Wording) (words : List Word) : List (List Char) :=
  (wording.run words).1 ++ (wording.run words).2.finish

variable (wording : Wording)

@[simp] theorem run_nil : wording.run [] = ([], wording) := rfl

@[simp] theorem run_cons (word : Word) (words : List Word) :
    wording.run (word :: words) =
      ((wording.step word).1 ++ ((wording.step word).2.run words).1,
        ((wording.step word).2.run words).2) := rfl

theorem run_append (words later : List Word) :
    wording.run (words ++ later) =
      ((wording.run words).1 ++ ((wording.run words).2.run later).1,
        ((wording.run words).2.run later).2) := by
  induction words generalizing wording with
  | nil => rfl
  | cons word words ih => simp only [List.cons_append, run_cons, ih, List.append_assoc]

end Wording

namespace Draft

def wording (draft : Draft) : Wording := ⟨draft.text, draft.joint.isSome⟩

theorem wording_append (fragment : Fragment) (draft : Draft) :
    (draft.append fragment).wording = draft.wording.append fragment.text := by
  have absorbs : draft.absorbsBlanks = draft.wording.absorbsBlanks := rfl
  obtain ⟨visible, shape⟩ : ∃ visible,
      visible = if draft.absorbsBlanks then fragment.dropWhile isBlank else fragment := ⟨_, rfl⟩
  have text : visible.text =
      if draft.wording.absorbsBlanks then fragment.text.dropWhile isBlank else fragment.text := by
    rw [shape, absorbs]
    split <;> rfl
  rw [append, Wording.append, ← shape, ← text]
  by_cases empty : visible.isEmpty = true
  · rw [if_pos empty, if_pos (show visible.text.isEmpty = true from empty)]
  · rw [if_neg empty, if_neg (show ¬visible.text.isEmpty = true from empty)]
    obtain ⟨before, provenance, joint⟩ := draft
    cases joint <;> simp [wording, joined, push, Wording.joined]

theorem wording_endLine (stop : Nat) (draft : Draft) :
    (draft.endLine stop).wording = draft.wording.endLine := by
  rw [endLine, Wording.endLine]
  by_cases stays : (draft.text.isEmpty || draft.joint.isSome) = true
  · rw [if_pos stays,
      if_pos (show (draft.wording.text.isEmpty || draft.wording.due) = true from stays)]
  · rw [if_neg stays,
      if_neg (show ¬(draft.wording.text.isEmpty || draft.wording.due) = true from stays)]
    rfl

/-- The places of a draft have no part in its wording. -/
theorem wording_extend (draft : Draft) {item : ProseItem} (joins : item ≠ .division) :
    draft.wording.step item.word = ([], (ProseItem.extend draft item).wording) := by
  cases item with
  | text fragment => exact congrArg (Prod.mk []) (draft.wording_append fragment).symm
  | lineEnd stop => exact congrArg (Prod.mk []) (draft.wording_endLine stop).symm
  | division => exact absurd rfl joins

theorem map_fst_finish? (draft : Draft) :
    (draft.finish?.map Prod.fst).toList = draft.wording.finish := by
  rw [finish?, Wording.finish]
  by_cases nothing : (trimEnd draft.text).isEmpty = true
  · rw [if_pos (show draft.trimmed.text.isEmpty = true from nothing),
      if_pos (show (trimEnd draft.wording.text).isEmpty = true from nothing)]
    rfl
  · rw [if_neg (show ¬draft.trimmed.text.isEmpty = true from nothing),
      if_neg (show ¬(trimEnd draft.wording.text).isEmpty = true from nothing)]
    rfl

end Draft

namespace ProseItem

private theorem texts_stretches (draft : Draft) {items first : List ProseItem}
    {later : List (List ProseItem)} (shape : stretches items = first :: later) :
    ((first.foldl extend draft).finish?.map Prod.fst).toList ++
        (later.filterMap fun stretch => (stretch.foldl extend .empty).finish?).map Prod.fst =
      draft.wording.texts (items.map word) := by
  induction items generalizing draft first later with
  | nil =>
    obtain ⟨rfl, rfl⟩ := List.cons.inj shape
    simpa [Wording.texts] using draft.map_fst_finish?
  | cons item items ih =>
    obtain ⟨next, others, rest⟩ := exists_stretches_eq_cons items
    by_cases division : item = .division
    · subst division
      rw [stretches, rest] at shape
      obtain ⟨rfl, rfl⟩ := List.cons.inj shape
      have behind := ih .empty rest
      rw [List.map_cons, Wording.texts, Wording.run_cons, List.append_assoc]
      change _ = draft.wording.finish ++ Draft.empty.wording.texts (items.map word)
      rw [← behind, ← draft.map_fst_finish?, List.filterMap_cons]
      cases (next.foldl extend .empty).finish? <;> rfl
    · rw [stretches_cons division rest] at shape
      obtain ⟨rfl, rfl⟩ := List.cons.inj shape
      rw [List.foldl_cons, ih (extend draft item) rest, List.map_cons, Wording.texts,
        Wording.texts, Wording.run_cons, draft.wording_extend division]
      rfl

/-- The texts of the passages that items make up are those of their words. -/
theorem map_fst_passages (items : List ProseItem) :
    (passages items).map Prod.fst = Wording.empty.texts (items.map word) := by
  obtain ⟨first, later, shape⟩ := exists_stretches_eq_cons items
  have texts := texts_stretches .empty shape
  change _ = Wording.empty.texts (items.map word) at texts
  rw [← texts, passages, shape, List.filterMap_cons]
  cases (first.foldl extend .empty).finish? <;> rfl

end ProseItem

end CommentProse
