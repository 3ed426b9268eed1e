import CommentProse.Proofs.Checked.Lookup
import CommentProse.Proofs.Prose.Offsets
import Mathlib.Data.List.Basic

/-! # A provenance is a list of offsets

A provenance changes only by pushing bytes behind it and by cutting its end off. Whatever is done in
whatever order, it can be asked as if it were the plain list of the offsets of its bytes: for its
size, for the offset behind a position and, with one exception, for the range behind a range of
positions (`Provenance.changes_refine_list`). The exception is a range that ends one byte past the
end. The invariant behind this is that no run is ever empty.
-/

namespace CommentProse

namespace Provenance

/-! ### Runs are never empty -/

/-- No run is empty. -/
def Filled (provenance : Provenance) : Prop := ∀ run ∈ provenance.runs, 0 < run.length

variable {provenance : Provenance}

theorem filled_empty : empty.Filled := by simp [Filled, empty]

private theorem length_pos_of_mem_pushRun {run : Run} {runs : List Run} (positive : 0 < run.length)
    (filled : ∀ run ∈ runs, 0 < run.length) : ∀ part ∈ pushRun run runs, 0 < part.length := by
  fun_induction pushRun run runs with
  | case1 => simpa using positive
  | case2 last meets =>
    rw [List.forall_mem_singleton]
    exact Nat.add_pos_right _ positive
  | case3 last apart => simpa [positive] using filled
  | case4 first runs _ ih =>
    obtain ⟨here, later⟩ := List.forall_mem_cons.mp filled
    exact List.forall_mem_cons.mpr ⟨here, ih later⟩

theorem Filled.push (filled : provenance.Filled) (source length : Nat) :
    (provenance.push source length).Filled := by
  rw [Provenance.push]
  split
  · exact filled
  · next nonempty => exact length_pos_of_mem_pushRun (Nat.pos_of_ne_zero nonempty) filled

theorem Filled.take (filled : provenance.Filled) (size : Nat) : (provenance.take size).Filled := by
  obtain ⟨runs⟩ := provenance
  simp only [Filled, Provenance.take] at filled ⊢
  fun_induction takeRuns size runs with
  | case1 => exact filled
  | case2 => simp
  | case3 size run runs nonempty => simpa using Nat.pos_of_ne_zero nonempty
  | case4 size run runs _ _ ih =>
    obtain ⟨here, later⟩ := List.forall_mem_cons.mp filled
    exact List.forall_mem_cons.mpr ⟨here, ih later⟩

/-- The place just past the last byte. -/
theorem Filled.origin?_size (filled : provenance.Filled) :
    provenance.origin? provenance.size = provenance.offsets.getLast?.map (· + 1) := by
  rw [origin?, if_pos rfl, offsets, offsetsOfRuns]
  rcases List.eq_nil_or_concat' provenance.runs with empty | ⟨earlier, last, parts⟩
  · simp [empty]
  · have positive : 0 < last.length := filled last (by simp [parts])
    rw [parts, List.getLast?_concat, List.flatMap_append, List.flatMap_singleton,
      List.getLast?_append_of_ne_nil _ (by simpa using Nat.ne_of_gt positive),
      List.getLast?_range', if_neg (Nat.ne_of_gt positive)]
    simp only [Option.map_some, Run.stop, Option.some.injEq]
    omega

/-! ### Changes -/

/-- What is done to a provenance while a text is put together. -/
inductive Change where
  /-- Bytes from consecutive offsets are put behind it. -/
  | push (source length : Nat)
  /-- Everything behind its first bytes is cut off. -/
  | take (size : Nat)
deriving DecidableEq, Repr

namespace Change

def apply (provenance : Provenance) : Change → Provenance
  | .push source length => provenance.push source length
  | .take size => provenance.take size

/-- What a change does to the list of all offsets. -/
def applyToList (offsets : List Nat) : Change → List Nat
  | .push source length => offsets ++ List.range' source length
  | .take size => offsets.take size

theorem offsets_apply (provenance : Provenance) (change : Change) :
    (change.apply provenance).offsets = change.applyToList provenance.offsets := by
  cases change with
  | push source length => exact offsets_push source length provenance
  | take size => exact offsets_take size provenance

theorem filled_apply (filled : provenance.Filled) (change : Change) :
    (change.apply provenance).Filled := by
  cases change with
  | push source length => exact filled.push source length
  | take size => exact filled.take size

end Change

/-- The provenance that is left of an empty one after changes. -/
def ofChanges (changes : List Change) : Provenance := changes.foldl Change.apply ∅

/-- The list that is left of an empty one after changes. -/
def listOfChanges (changes : List Change) : List Nat := changes.foldl Change.applyToList []

theorem offsets_ofChanges (changes : List Change) :
    (ofChanges changes).offsets = listOfChanges changes := by
  have later (provenance : Provenance) : (changes.foldl Change.apply provenance).offsets =
      changes.foldl Change.applyToList provenance.offsets := by
    induction changes generalizing provenance with
    | nil => rfl
    | cons change changes ih => rw [List.foldl_cons, ih, Change.offsets_apply, List.foldl_cons]
  exact later ∅

theorem filled_ofChanges (changes : List Change) : (ofChanges changes).Filled := by
  have later {provenance : Provenance} (filled : provenance.Filled) :
      (changes.foldl Change.apply provenance).Filled := by
    induction changes generalizing provenance with
    | nil => exact filled
    | cons change changes ih => exact ih (Change.filled_apply filled change)
  exact later filled_empty

/-! ### Looking up -/

/-- The offset at a position of a list; the place just past the last offset is one more. -/
def placeIn? (offsets : List Nat) (position : Nat) : Option Nat :=
  if position = offsets.length then offsets.getLast?.map (· + 1) else offsets[position]?

/-- The range from the offset at the first position of a range to just past the offset at the last
one. There is none if the range is reversed or does not lie in the list. -/
def rangeIn? (offsets : List Nat) (range : ByteRange) : Option ByteRange :=
  if range.stop < range.start then none
  else if range.start = range.stop then
    (placeIn? offsets range.start).map fun place => ⟨place, place⟩
  else
    match offsets[range.start]?, offsets[range.stop - 1]? with
    | some first, some last => some ⟨first, last + 1⟩
    | _, _ => none

/-- The range has positions of which the last is the one just past the end of the list. -/
structure Overshoots (offsets : List Nat) (range : ByteRange) : Prop where
  nonempty : offsets ≠ []
  start_lt_stop : range.start < range.stop
  stop_eq : range.stop = offsets.length + 1

theorem Filled.origin?_eq_placeIn? (filled : provenance.Filled) (position : Nat) :
    provenance.origin? position = placeIn? provenance.offsets position := by
  rw [placeIn?, length_offsets]
  split
  · next ends => rw [ends, filled.origin?_size]
  · next other =>
    by_cases inside : position < provenance.size
    · exact origin?_eq_getElem? inside
    · rw [origin?, if_neg other, originIn?_eq_getElem?]
      rfl

theorem placeIn?_of_lt {offsets : List Nat} {position : Nat} (inside : position < offsets.length) :
    placeIn? offsets position = offsets[position]? := if_neg (Nat.ne_of_lt inside)

theorem placeIn?_of_gt {offsets : List Nat} {position : Nat} (beyond : offsets.length < position) :
    placeIn? offsets position = none := by
  rw [placeIn?, if_neg (Nat.ne_of_gt beyond), List.getElem?_eq_none (Nat.le_of_lt beyond)]

theorem placeIn?_nil (position : Nat) : placeIn? [] position = none := by
  rw [placeIn?]
  split <;> rfl

theorem rangeIn?_of_lt {offsets : List Nat} {range : ByteRange}
    (order : range.start < range.stop) :
    rangeIn? offsets range = (offsets[range.start]?).bind fun first =>
      (offsets[range.stop - 1]?).map fun last => ⟨first, last + 1⟩ := by
  rw [rangeIn?, if_neg (Nat.not_lt_of_gt order), if_neg (Nat.ne_of_lt order)]
  cases offsets[range.start]? <;> cases offsets[range.stop - 1]? <;> rfl

/-- The range behind positions is put together from the places of its first and last position. -/
theorem Filled.originRange?_of_lt (filled : provenance.Filled) {range : ByteRange}
    (order : range.start < range.stop) :
    provenance.originRange? range = (placeIn? provenance.offsets range.start).bind fun first =>
      (placeIn? provenance.offsets (range.stop - 1)).map fun last => ⟨first, last + 1⟩ := by
  rw [originRange?, if_neg (Nat.not_lt_of_gt order), filled.origin?_eq_placeIn?,
    filled.origin?_eq_placeIn?]
  cases placeIn? provenance.offsets range.start with
  | none => rfl
  | some first => exact if_neg (Nat.ne_of_lt order)

theorem Filled.originRange?_eq_rangeIn? (filled : provenance.Filled) {range : ByteRange}
    (regular : ¬Overshoots provenance.offsets range) :
    provenance.originRange? range = rangeIn? provenance.offsets range := by
  rcases Nat.lt_trichotomy range.start range.stop with order | meets | reversed
  · rw [filled.originRange?_of_lt order, rangeIn?_of_lt order]
    by_cases empty : provenance.offsets = []
    · rw [empty, placeIn?_nil]
      rfl
    · have stop : range.stop ≠ provenance.offsets.length + 1 :=
        fun same => regular ⟨empty, order, same⟩
      by_cases inside : range.stop ≤ provenance.offsets.length
      · rw [placeIn?_of_lt (by omega), placeIn?_of_lt (by omega)]
      · have beyond : provenance.offsets.length < range.stop - 1 := by omega
        rw [placeIn?_of_gt beyond, List.getElem?_eq_none (Nat.le_of_lt beyond)]
        cases placeIn? provenance.offsets range.start <;>
          cases provenance.offsets[range.start]? <;> rfl
  · rw [originRange?, rangeIn?, if_neg (by omega), if_neg (by omega), if_pos meets,
      filled.origin?_eq_placeIn?]
    cases placeIn? provenance.offsets range.start with
    | none => rfl
    | some place => exact if_pos meets
  · rw [originRange?, rangeIn?, if_pos reversed, if_pos reversed]

/-- A range that overshoots is taken to one that ends two behind the last offset. -/
theorem Filled.originRange?_of_overshoots (filled : provenance.Filled) {range : ByteRange}
    (overshoots : Overshoots provenance.offsets range) :
    ∃ first last, placeIn? provenance.offsets range.start = some first ∧
      provenance.offsets.getLast? = some last ∧
      provenance.originRange? range = some ⟨first, last + 2⟩ := by
  have order := overshoots.start_lt_stop
  have stop := overshoots.stop_eq
  obtain ⟨last, ends⟩ := Option.isSome_iff_exists.mp
    (List.getLast?_isSome.mpr overshoots.nonempty)
  have behind : placeIn? provenance.offsets (range.stop - 1) = some (last + 1) := by
    rw [placeIn?, if_pos (by omega), ends]
    rfl
  obtain ⟨first, begins⟩ : ∃ first, placeIn? provenance.offsets range.start = some first := by
    by_cases inside : range.start < provenance.offsets.length
    · exact ⟨_, (placeIn?_of_lt inside).trans (List.getElem?_eq_getElem inside)⟩
    · have end_eq : range.start = range.stop - 1 := by omega
      exact ⟨_, end_eq ▸ behind⟩
  refine ⟨first, last, begins, ends, ?_⟩
  rw [filled.originRange?_of_lt order, begins, behind]
  rfl

theorem rangeIn?_of_overshoots {offsets : List Nat} {range : ByteRange}
    (overshoots : Overshoots offsets range) : rangeIn? offsets range = none := by
  have stop := overshoots.stop_eq
  have beyond : offsets.length ≤ range.stop - 1 := by omega
  rw [rangeIn?_of_lt overshoots.start_lt_stop, List.getElem?_eq_none beyond]
  cases offsets[range.start]? <;> rfl

/-- Whatever is pushed and cut off in whatever order, the size of a provenance and the place behind
every position are those of the list of its offsets, also when the run of a position is found by the
positions at which runs begin. The range behind a range of positions is that of the list exactly if
the last position is not the one just past the end; there the list has no range, but the
provenance gives one that ends two behind its last offset. -/
theorem changes_refine_list (changes : List Change) :
    (ofChanges changes).size = (listOfChanges changes).length ∧
    (∀ position, (ofChanges changes).origin? position = placeIn? (listOfChanges changes) position ∧
      Checked.origin? position (ofChanges changes) =
        some (placeIn? (listOfChanges changes) position)) ∧
    (∀ range, (ofChanges changes).originRange? range = rangeIn? (listOfChanges changes) range ↔
      ¬Overshoots (listOfChanges changes) range) ∧
    ∀ range, Overshoots (listOfChanges changes) range →
      ∃ first last, placeIn? (listOfChanges changes) range.start = some first ∧
        (listOfChanges changes).getLast? = some last ∧
        (ofChanges changes).originRange? range = some ⟨first, last + 2⟩ := by
  have filled := filled_ofChanges changes
  rw [← offsets_ofChanges]
  refine ⟨(length_offsets _).symm, fun position => ⟨filled.origin?_eq_placeIn? position, ?_⟩,
    fun range => ⟨fun same overshoots => ?_, filled.originRange?_eq_rangeIn?⟩,
    fun range => filled.originRange?_of_overshoots⟩
  · rw [Checked.origin?_eq, filled.origin?_eq_placeIn?]
  · obtain ⟨first, last, -, -, found⟩ := filled.originRange?_of_overshoots overshoots
    rw [found, rangeIn?_of_overshoots overshoots] at same
    cases same

/-- Of three bytes from 10 on, the first four positions are taken to four bytes. -/
theorem changes_refine_list_overshoot :
    Overshoots (listOfChanges [.push 10 3]) ⟨0, 4⟩ ∧
      rangeIn? (listOfChanges [.push 10 3]) ⟨0, 4⟩ = none ∧
      (ofChanges [.push 10 3]).originRange? ⟨0, 4⟩ = some ⟨10, 14⟩ := by
  have overshoots : Overshoots (listOfChanges [.push 10 3]) ⟨0, 4⟩ :=
    ⟨by decide, by decide, rfl⟩
  obtain ⟨first, last, begins, ends, found⟩ :=
    (changes_refine_list [.push 10 3]).2.2.2 ⟨0, 4⟩ overshoots
  obtain rfl : 10 = first := Option.some.inj begins
  obtain rfl : 12 = last := Option.some.inj ends
  exact ⟨overshoots, rfl, found⟩

end Provenance

end CommentProse
