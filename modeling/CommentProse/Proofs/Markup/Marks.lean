import CommentProse.Proofs.Markup.Breaking
import CommentProse.Proofs.Markup.Nesting

/-! # Marks

Reading cuts a text into pieces wherever it takes a step, and joins them afterwards. The marks of
pieces, each character with its role, do not show where pieces meet. Seen in marks, plain text is
read one character after the other (`OpenMarkup.marks_read_of_stepText`), so reading can be resumed
at any plain character of prose with nothing but references open
(`OpenMarkup.exists_regains`).
-/

namespace CommentProse

namespace Piece

/-- Every character of the pieces with its role. -/
def marks (pieces : List Piece) : List (Char × Role) :=
  pieces.flatMap fun piece => piece.text.map (·, piece.role)

@[simp] theorem marks_nil : marks [] = [] := rfl

@[simp] theorem marks_cons (piece : Piece) (pieces : List Piece) :
    marks (piece :: pieces) = piece.text.map (·, piece.role) ++ marks pieces := rfl

@[simp] theorem marks_append (front back : List Piece) :
    marks (front ++ back) = marks front ++ marks back := List.flatMap_append

@[simp] theorem map_fst_marks (pieces : List Piece) :
    (marks pieces).map Prod.fst = pieces.flatMap text := by
  rw [marks, List.map_flatMap]
  apply List.flatMap_congr
  intro piece _
  rw [List.map_map]
  exact List.map_id _

@[simp] theorem length_marks (pieces : List Piece) :
    (marks pieces).length = (pieces.flatMap text).length := by
  rw [← map_fst_marks, List.length_map]

theorem marks_join_cons (piece : Piece) (pieces : List Piece) :
    marks (cons piece pieces) = marks (piece :: pieces) := by
  cases pieces with
  | nil => rfl
  | cons next pieces =>
    rw [cons]
    split
    · next same => simp [same.1]
    · rfl

/-- Joining pieces changes no mark. -/
theorem marks_join (pieces : List Piece) : marks (join pieces) = marks pieces := by
  induction pieces with
  | nil => rfl
  | cons piece pieces ih =>
    rw [join_cons]
    split
    · next empty => simp [ih, empty]
    · rw [marks_join_cons, marks_cons, marks_cons, ih]

end Piece

namespace Span

/-- Every byte of a span that is laid out belongs to a character that is marked with its role. -/
theorem exists_mark_of_mem_place {start : Nat} {pieces : List Piece} {span : Span}
    (member : span ∈ place start pieces) {offset : Nat} (inside : offset ∈ span.range) :
    ∃ front c back, Piece.marks pieces = front ++ (c, span.role) :: back ∧
      start + width (front.map Prod.fst) ≤ offset ∧
      offset < start + width (front.map Prod.fst) + c.utf8Size := by
  obtain ⟨earlier, piece, later, rfl, rfl⟩ := exists_piece_of_mem_place member
  obtain ⟨left, c, right, parts, lower, upper⟩ := exists_char_around inside.1 inside.2
  refine ⟨Piece.marks earlier ++ left.map (·, piece.role), c,
    right.map (·, piece.role) ++ Piece.marks later, by simp [parts], ?_⟩
  have width_eq : width ((Piece.marks earlier ++ left.map (·, piece.role)).map Prod.fst) =
      width (earlier.flatMap Piece.text) + width left := by
    rw [List.map_append, Piece.map_fst_marks, width_append, List.map_map]
    congr 2
    exact List.map_id left
  rw [width_eq, ← Nat.add_assoc]
  exact ⟨lower, upper⟩

/-- The byte belongs to a span with this role. -/
def RoleAt (spans : List Span) (offset : Nat) (role : Role) : Prop :=
  ∃ span ∈ spans, offset ∈ span.range ∧ span.role = role

end Span

namespace OpenMarkup

variable {markup running : OpenMarkup} {settings : Settings}

/-- The role of plain text. -/
def textRole (markup : OpenMarkup) : Role := if markup.verbatim.isSome then .markup else .prose

/-- Plain text is read one character after the other. -/
theorem marks_stepText (resumes : markup.Resumes) (place : Nat) (c : Char) (text : List Char) :
    Piece.marks ((markup.stepText c text).pieces ++
        (markup.read settings (place + width (markup.stepText c text).taken)
          (markup.stepText c text).rest).1) =
      (c, markup.textRole) :: Piece.marks (markup.read settings (place + c.utf8Size) text).1 := by
  cases text with
  | nil => simp [stepText, read, textRole]
  | cons d text =>
    cases special : isMarkupChar d with
    | true => simp [stepText, special, textRole, Advance.taken]
    | false =>
      -- The next step takes what this one takes, but for its first character.
      have next : markup.step settings (place + c.utf8Size) d text = markup.stepText d text :=
        resumes.step_eq_stepText settings text _ special
      rw [read_cons, next]
      simp [stepText, special, textRole, Advance.taken, Nat.add_assoc]

theorem marks_read_cons (markup : OpenMarkup) (place : Nat) (c : Char) (text : List Char) :
    Piece.marks (markup.read settings place (c :: text)).1 =
      Piece.marks (markup.step settings place c text).pieces ++
        Piece.marks ((markup.step settings place c text).markup.read settings
          (place + width (markup.step settings place c text).taken)
          (markup.step settings place c text).rest).1 := by
  rw [read_cons]
  exact Piece.marks_append _ _

/-- A step that takes plain text takes its first character, and the others one by one. -/
theorem marks_read_of_stepText (resumes : running.Resumes) {place : Nat} {c : Char}
    {text : List Char} (plain : markup.step settings place c text = running.stepText c text) :
    Piece.marks (markup.read settings place (c :: text)).1 =
      (c, running.textRole) ::
        Piece.marks (running.read settings (place + c.utf8Size) text).1 := by
  rw [read_cons, plain]
  exact marks_stepText resumes place c text

/-- A mark cuts the text that was read at its character. -/
theorem text_eq_of_marks {place : Nat} {text : List Char} {left right : List (Char × Role)}
    {c : Char} {role : Role}
    (marks : Piece.marks (markup.read settings place text).1 = left ++ (c, role) :: right) :
    text = left.map Prod.fst ++ c :: right.map Prod.fst := by
  rw [← flatMap_text_read settings markup place text, ← Piece.map_fst_marks, marks,
    List.map_append, List.map_cons]

/-! ### Marks and spans -/

/-- Every byte of a span of a line belongs to a character that is marked with its role. -/
theorem exists_mark_of_mem_readLine {content : Fragment} {span : Span}
    (member : span ∈ (markup.readLine settings content).1) {offset : Nat}
    (inside : offset ∈ span.range) :
    ∃ front c back, Piece.marks (markup.read settings content.start content.text).1 =
        front ++ (c, span.role) :: back ∧
      content.start + width (front.map Prod.fst) ≤ offset ∧
      offset < content.start + width (front.map Prod.fst) + c.utf8Size := by
  have marks := Span.exists_mark_of_mem_place member inside
  rwa [Piece.marks_join] at marks

/-- The mark of a character is the role of the span that has one of its bytes. -/
theorem getElem?_marks_of_mem_readLine {start : Nat} {text : List Char} {span : Span}
    (member : span ∈ (markup.readLine settings ⟨start, text⟩).1) {offset : Nat}
    (inside : offset ∈ span.range) (front : List Char) {c : Char} {back : List Char}
    (parts : text = front ++ c :: back) (lower : start + width front ≤ offset)
    (upper : offset < start + width front + c.utf8Size) :
    (Piece.marks (markup.read settings start text).1)[front.length]? = some (c, span.role) := by
  obtain ⟨before, d, after, marks, first, last⟩ := exists_mark_of_mem_readLine member inside
  dsimp only at marks first last
  have spelled := (text_eq_of_marks marks).symm.trans parts
  obtain ⟨rfl, rfl⟩ := eq_of_char_around spelled first last lower upper
  rw [marks]
  simp

/-- A byte of a line has a role exactly if its character is marked with it. -/
theorem roleAt_readLine_iff {content : Fragment} {offset : Nat} {role : Role} :
    Span.RoleAt (markup.readLine settings content).1 offset role ↔
      ∃ front c back, Piece.marks (markup.read settings content.start content.text).1 =
          front ++ (c, role) :: back ∧
        content.start + width (front.map Prod.fst) ≤ offset ∧
        offset < content.start + width (front.map Prod.fst) + c.utf8Size := by
  constructor
  · rintro ⟨span, member, inside, rfl⟩
    exact exists_mark_of_mem_readLine member inside
  · rintro ⟨front, c, back, marks, lower, upper⟩
    have spelled := text_eq_of_marks marks
    have within : offset < content.stop := by
      rw [Fragment.stop, spelled, width_append, width_cons]
      omega
    obtain ⟨span, member, inside⟩ := (isSpannedBy_readLine settings markup content).tiles.exists_mem
      ((Nat.le_add_right _ _).trans lower) within
    have same := getElem?_marks_of_mem_readLine member inside _ spelled lower upper
    rw [marks, List.length_map, List.getElem?_append_right (Nat.le_refl _), Nat.sub_self] at same
    exact ⟨span, member, inside, (congrArg Prod.snd (Option.some.inj same)).symm⟩

/-- A byte of a word that is marked alike is a byte of one of its characters. -/
theorem exists_mark_of_word {start offset : Nat} {word : List Char}
    (left right : List (Char × Role)) {role : Role}
    (lower : start + width (left.map Prod.fst) ≤ offset)
    (upper : offset < start + width (left.map Prod.fst) + width word) :
    ∃ front c back, left ++ word.map (·, role) ++ right = front ++ (c, role) :: back ∧
      start + width (front.map Prod.fst) ≤ offset ∧
      offset < start + width (front.map Prod.fst) + c.utf8Size := by
  obtain ⟨before, c, after, rfl, first, last⟩ := exists_char_around lower upper
  have size : width ((left ++ before.map (·, role)).map Prod.fst) =
      width (left.map Prod.fst) + width before := by
    simp [Function.comp_def]
  refine ⟨left ++ before.map (·, role), c, after.map (·, role) ++ right, by simp, ?_⟩
  rw [size, ← Nat.add_assoc]
  exact ⟨first, last⟩

/-- The bytes of a part that was read with one role have this role. -/
theorem roleAt_readLine_of_marks {start offset : Nat} {text word : List Char}
    (left : List (Char × Role)) {right : List (Char × Role)} {role : Role}
    (marks : Piece.marks (markup.read settings start text).1 =
      left ++ word.map (·, role) ++ right)
    (lower : start + width (left.map Prod.fst) ≤ offset)
    (upper : offset < start + width (left.map Prod.fst) + width word) :
    Span.RoleAt (markup.readLine settings ⟨start, text⟩).1 offset role := by
  rw [roleAt_readLine_iff, marks]
  exact exists_mark_of_word left right lower upper

/-- A byte that lies in a part of what was read is of a character in this part. -/
theorem mem_of_mark_between {start offset : Nat} (left : List (Char × Role))
    {middle right front back : List (Char × Role)} {c : Char} {role : Role}
    (same : left ++ middle ++ right = front ++ (c, role) :: back)
    (first : start + width (left.map Prod.fst) ≤ offset)
    (last : offset < start + width ((left ++ middle).map Prod.fst))
    (lower : start + width (front.map Prod.fst) ≤ offset)
    (upper : offset < start + width (front.map Prod.fst) + c.utf8Size) : (c, role) ∈ middle := by
  rw [List.map_append, width_append, ← Nat.add_assoc] at last
  obtain ⟨before, d, after, parts, lower', upper'⟩ := exists_char_around first last
  have spelled : left.map Prod.fst ++ before ++ d :: (after ++ right.map Prod.fst) =
      front.map Prod.fst ++ c :: back.map Prod.fst := by
    simpa [parts] using congrArg (List.map Prod.fst) same
  obtain ⟨sameFront, rfl⟩ := eq_of_char_around spelled (by rw [width_append]; omega)
    (by rw [width_append]; omega) lower upper
  -- The place of the character among the marks.
  have index : front.length = left.length + before.length := by
    simpa using (congrArg List.length sameFront).symm
  have inside : before.length < middle.length := by
    have size := congrArg List.length parts
    simp only [List.length_map, List.length_append, List.length_cons] at size
    omega
  have here : (left ++ middle ++ right)[front.length]? = some (d, role) := by simp [same]
  rw [index, List.append_assoc, List.getElem?_append_right (Nat.le_add_right _ _),
    Nat.add_sub_cancel_left, List.getElem?_append_left inside] at here
  exact List.mem_of_getElem? here

/-! ### Where prose is read -/

theorem role_or_stepText_of_running (resumes : markup.Resumes) (settings : Settings) (place : Nat)
    (c : Char) (text : List Char) :
    (∀ piece ∈ (markup.stepRunning settings place c text).pieces, piece.role ≠ .prose) ∨
      ∃ running : OpenMarkup, running.Resumes ∧
        (markup.Nested place → running.Nested place) ∧
        (markup.references = [] → running.references = []) ∧
        markup.stepRunning settings place c text = running.stepText c text := by
  have deeper (change : Nat → Nat) : (markup.withDepth change).Resumes ∧
      (markup.Nested place → (markup.withDepth change).Nested place) ∧
      (markup.references = [] → (markup.withDepth change).references = []) := by
    refine ⟨resumes.withDepth change, fun nested => nested.withDepth resumes.tag change,
      fun none_open => ?_⟩
    rw [withDepth, none_open]
    exact none_open
  rw [stepRunning]
  split
  · next less =>
    rw [stepLess]
    split
    · exact .inl (by simp)
    · exact .inr ⟨markup, resumes, id, id, by rw [less]⟩
  · split
    · next brace =>
      rw [stepOpen]
      split
      · exact .inl (by simp)
      · obtain ⟨resumes, nests, keeps⟩ := deeper (· + 1)
        exact .inr ⟨_, resumes, nests, keeps, by rw [brace]⟩
    · split
      · next brace =>
        rw [stepClose]
        split
        · exact .inr ⟨markup, resumes, id, id, by rw [brace]⟩
        · split
          · exact .inl (by simp)
          · obtain ⟨resumes, nests, keeps⟩ := deeper (· - 1)
            exact .inr ⟨_, resumes, nests, keeps, by rw [brace]⟩
      · exact .inr ⟨markup, resumes, id, id, rfl⟩

/-- A step takes no prose, or it takes plain text while nothing but references is open. -/
theorem role_or_stepText (markup : OpenMarkup) (settings : Settings) (place : Nat) (c : Char)
    (text : List Char) :
    (∀ piece ∈ (markup.step settings place c text).pieces, piece.role ≠ .prose) ∨
      ∃ running : OpenMarkup, running.Resumes ∧
        (markup.Nested place → running.Nested place) ∧
        (markup.references = [] → running.references = []) ∧
        markup.step settings place c text = running.stepText c text := by
  rw [step]
  split
  · rw [stepTag]
    split <;> exact .inl (by simp)
  · next reference outer noTag open_eq =>
    split
    · rw [stepExcluded]
      split <;> exact .inl (by simp)
    · split
      · have resumes : Resumes
            { markup with references := { reference with mode := .running } :: outer } :=
          ⟨noTag, by simp⟩
        rcases role_or_stepText_of_running resumes settings place c text with
          hidden | ⟨running, resumes, nests, -, plain⟩
        · exact .inl hidden
        · exact .inr ⟨running, resumes,
            fun nested => nests (nested.replace noTag open_eq rfl rfl), by simp [open_eq], plain⟩
      · exact .inl (by simp [stepTarget])
    · next innermost =>
      exact role_or_stepText_of_running ⟨noTag, by simp [open_eq, innermost]⟩ settings place c text
  · next noTag none_open =>
    exact role_or_stepText_of_running ⟨noTag, by simp [none_open]⟩ settings place c text

theorem verbatim_eq_none_of_textRole (role : markup.textRole = .prose) :
    markup.verbatim = .none := by
  rw [textRole] at role
  split at role
  · cases role
  · next plain => simpa using plain

theorem Nested.forall_running {place : Nat} (nested : markup.Nested place)
    (resumes : markup.Resumes) : ∀ reference ∈ markup.references, reference.mode = .running := by
  cases open_eq : markup.references with
  | nil => simp
  | cons reference outer =>
    rw [← open_eq]
    exact nested.running_of_innermost open_eq (resumes.running reference (by simp [open_eq]))

/-- Nothing but an opening brace opens a reference. -/
theorem references_step_eq_nil (none_open : markup.references = []) {place : Nat} {c : Char}
    {text : List Char} (other : c ≠ '\x7b') :
    (markup.step settings place c text).markup.references = [] := by
  rw [step]
  split
  · rw [stepTag]
    split <;> exact none_open
  · next open_eq => simp [none_open] at open_eq
  · rw [stepRunning]
    split
    · rw [stepLess]
      split <;> exact none_open
    · split
      · rw [stepClose, none_open]
        exact none_open
      · exact none_open

theorem exists_append_of_length_le {α : Type} {before after front back : List α}
    (same : before ++ after = front ++ back) (shorter : before.length ≤ front.length) :
    ∃ between, front = before ++ between ∧ after = between ++ back := by
  obtain ⟨between, rfl, rfl⟩ | ⟨between, rfl, rfl⟩ := List.append_eq_append_iff.mp same
  · exact ⟨between, rfl, rfl⟩
  · have empty : between = [] := by
      rw [List.length_append] at shorter
      exact List.length_eq_zero_iff.mp (by omega)
    exact ⟨[], by simp [empty], by simp [empty]⟩

/-- Where a character is marked as prose, the step that takes it does not hide it. -/
theorem length_flatMap_text_le {pieces : List Piece} {marks : List (Char × Role)} {position : Nat}
    {c : Char} (hidden : ∀ piece ∈ pieces, piece.role ≠ .prose)
    (prose : (Piece.marks pieces ++ marks)[position]? = some (c, .prose)) :
    (pieces.flatMap Piece.text).length ≤ position := by
  refine Nat.not_lt.mp fun inside => ?_
  rw [← Piece.length_marks] at inside
  rw [List.getElem?_append_left inside] at prose
  obtain ⟨piece, member, here⟩ := List.mem_flatMap.mp (List.mem_of_getElem? prose)
  obtain ⟨d, -, same⟩ := List.mem_map.mp here
  exact hidden piece member (congrArg Prod.snd same)

/-- A step that takes no prose ends before any character of prose. -/
theorem exists_append_of_hidden {place : Nat} {d c : Char} {text front back : List Char}
    (parts : d :: text = front ++ c :: back)
    (hidden : ∀ piece ∈ (markup.step settings place d text).pieces, piece.role ≠ .prose)
    (prose : (Piece.marks (markup.read settings place (d :: text)).1)[front.length]? =
      some (c, .prose)) :
    ∃ more, front = (markup.step settings place d text).taken ++ more ∧
      (markup.step settings place d text).rest = more ++ c :: back ∧
      (Piece.marks ((markup.step settings place d text).markup.read settings
        (place + width (markup.step settings place d text).taken)
        (more ++ c :: back)).1)[more.length]? = some (c, .prose) := by
  rw [marks_read_cons] at prose
  have taken : (markup.step settings place d text).taken.length ≤ front.length :=
    length_flatMap_text_le hidden prose
  obtain ⟨more, rfl, rest⟩ :=
    exists_append_of_length_le ((append_step settings markup place d text).trans parts) taken
  refine ⟨more, rfl, rest, ?_⟩
  have size : (Piece.marks (markup.step settings place d text).pieces).length =
      (markup.step settings place d text).taken.length := Piece.length_marks _
  rwa [rest, List.length_append, List.getElem?_append_right (by omega), size,
    Nat.add_sub_cancel_left] at prose

/-! ### Reading from the middle on -/

/-- Behind `front`, the text is read as if the markup `running` were all that is known of what
stands before: nothing but references, all read as running text. They were open or begin in
`front`. -/
structure Regains (settings : Settings) (markup : OpenMarkup) (place : Nat)
    (front back : List Char) (running : OpenMarkup) : Prop where
  tag : running.tag = .none
  verbatim : running.verbatim = .none
  modes : ∀ reference ∈ running.references, reference.mode = .running
  fresh : markup.references = [] → '\x7b' ∉ front → running.references = []
  marks : ∃ before, before.map Prod.fst = front ∧
    Piece.marks (markup.read settings place (front ++ back)).1 =
      before ++ Piece.marks (running.read settings (place + width front) back).1

theorem Regains.of_hidden {place : Nat} {d : Char} {front more back : List Char}
    (parts : d :: front = (markup.step settings place d (front ++ back)).taken ++ more)
    (rest : (markup.step settings place d (front ++ back)).rest = more ++ back)
    (regains : Regains settings (markup.step settings place d (front ++ back)).markup
      (place + width (markup.step settings place d (front ++ back)).taken) more back running) :
    Regains settings markup place (d :: front) back running := by
  obtain ⟨before, spelled, marks⟩ := regains.marks
  refine ⟨regains.tag, regains.verbatim, regains.modes, fun none_open unbraced => ?_,
    Piece.marks (markup.step settings place d (front ++ back)).pieces ++ before, ?_, ?_⟩
  · have other : d ≠ '\x7b' := fun same => unbraced (same ▸ List.mem_cons_self)
    rw [parts, List.mem_append, not_or] at unbraced
    exact regains.fresh (references_step_eq_nil none_open other) unbraced.2
  · rw [List.map_append, Piece.map_fst_marks, spelled]
    exact parts.symm
  · rw [List.cons_append, marks_read_cons, rest, marks, parts, width_append, Nat.add_assoc,
      List.append_assoc]

theorem Regains.of_stepText {final : OpenMarkup} {place : Nat} {d : Char} {front back : List Char}
    (resumes : running.Resumes)
    (keeps : markup.references = [] → running.references = [])
    (plain : markup.step settings place d (front ++ back) = running.stepText d (front ++ back))
    (regains : Regains settings running (place + d.utf8Size) front back final) :
    Regains settings markup place (d :: front) back final := by
  obtain ⟨before, spelled, marks⟩ := regains.marks
  refine ⟨regains.tag, regains.verbatim, regains.modes, fun none_open unbraced => ?_,
    (d, running.textRole) :: before, ?_, ?_⟩
  · exact regains.fresh (keeps none_open) (mt (List.mem_cons_of_mem d) unbraced)
  · rw [List.map_cons, spelled]
  · rw [List.cons_append, marks_read_of_stepText resumes plain, marks, width_cons, Nat.add_assoc]
    rfl

/-- Plain text of prose is read by the markup that takes it, with nothing in front. -/
theorem Regains.here {place : Nat} (nested : running.Nested place) (resumes : running.Resumes)
    (keeps : markup.references = [] → running.references = []) {c : Char} {back : List Char}
    (text : markup.step settings place c back = running.stepText c back)
    (role : running.textRole = .prose) (plain : isMarkupChar c = false) :
    Regains settings markup place [] (c :: back) running := by
  refine ⟨resumes.tag, verbatim_eq_none_of_textRole role, nested.forall_running resumes,
    fun none_open _ => keeps none_open, [], rfl, ?_⟩
  rw [List.nil_append, marks_read_of_stepText resumes text,
    marks_read_of_stepText resumes (resumes.step_eq_stepText settings back _ plain)]
  rfl

/-- A text can be read from any plain character of prose on. -/
theorem exists_regains {place : Nat} (nested : markup.Nested place) {front back : List Char}
    {c : Char} (plain : isMarkupChar c = false)
    (prose : (Piece.marks (markup.read settings place (front ++ c :: back)).1)[front.length]? =
      some (c, .prose)) :
    ∃ running, Regains settings markup place front (c :: back) running := by
  induction size : front.length using Nat.strong_induction_on generalizing markup place front with
  | _ length ih =>
  subst size
  cases front with
  | nil =>
    rcases role_or_stepText markup settings place c back with
      hidden | ⟨running, resumes, nests, keeps, text⟩
    · have parts : c :: back = [] ++ c :: back := rfl
      obtain ⟨more, taken, -⟩ := exists_append_of_hidden parts hidden prose
      exact absurd (List.append_eq_nil_iff.mp taken.symm).1
        (step_taken_ne_nil settings markup place c back)
    · rw [List.nil_append, marks_read_of_stepText resumes text] at prose
      exact ⟨running, .here (nests nested) resumes keeps text (by simpa using prose) plain⟩
  | cons d front =>
    rcases role_or_stepText markup settings place d (front ++ c :: back) with
      hidden | ⟨running, resumes, nests, keeps, text⟩
    · have nonempty := step_taken_ne_nil settings markup place d (front ++ c :: back)
      obtain ⟨more, parts, rest, prose⟩ := exists_append_of_hidden rfl hidden prose
      have shorter : more.length < (d :: front).length := by
        have positive := List.length_pos_iff.mpr nonempty
        rw [parts, List.length_append]
        omega
      obtain ⟨final, regains⟩ := ih more.length shorter
        (nested.step (Nat.lt_add_of_pos_right (Span.width_pos nonempty)) d) prose rfl
      exact ⟨final, .of_hidden parts rest regains⟩
    · rw [List.cons_append, marks_read_of_stepText resumes text] at prose
      obtain ⟨final, regains⟩ := ih front.length (Nat.lt_succ_self _)
        ((nests nested).mono (Nat.le_add_right _ _)) (by simpa using prose) rfl
      exact ⟨final, regains.of_stepText resumes keeps text⟩

end OpenMarkup

end CommentProse
