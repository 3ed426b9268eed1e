import CommentProse.Proofs.Checked.Lookup
import CommentProse.Proofs.OffsetList
import Mathlib.Data.List.Induction

/-! # Tables of runs

A provenance is kept as a table: the runs with the positions at which they begin, and the size.
What is pushed goes to the position at which the table ends, and what is cut off leaves from the
last run on; each change brings the stored positions and the stored size up to date, with sums that
must not be too large. `RunTable.ofProvenance` is the table that belongs to a provenance, and every
operation on it gives the table of what the operation makes of the provenance. So after any changes
the stored fields are those that the runs determine (`RunTable.foldlM_change?`).
-/

namespace CommentProse

namespace Provenance

/-- No run is empty, and neither the place behind an offset nor the size is too large. -/
structure Fits (limit : Nat) (provenance : Provenance) : Prop where
  filled : provenance.Filled
  offset_lt : ∀ offset ∈ provenance.offsets, offset + 1 < limit
  size_le : provenance.size ≤ limit

namespace Fits

variable {limit : Nat} {provenance : Provenance}

/-- Offsets in order are no more than there are numbers below the largest of them. -/
theorem of_pairwise (filled : provenance.Filled) (ordered : provenance.offsets.Pairwise (· < ·))
    (bounded : ∀ offset ∈ provenance.offsets, offset + 1 < limit) : provenance.Fits limit where
  filled := filled
  offset_lt := bounded
  size_le := by
    rw [← length_offsets]
    refine length_le_of_pairwise_lt ordered fun offset member => ⟨Nat.zero_le _, ?_⟩
    exact Nat.lt_of_succ_lt (bounded offset member)

theorem empty : Fits limit ∅ where
  filled := filled_empty
  offset_lt := by
    intro offset member
    cases member
  size_le := Nat.zero_le _

/-- The last byte of a run is right before its end. -/
theorem stop_lt (fits : provenance.Fits limit) : ∀ run ∈ provenance.runs, run.stop < limit := by
  intro run member
  have positive : 0 < run.length := fits.filled run member
  have last : run.source + run.length - 1 ∈ provenance.offsets :=
    List.mem_flatMap.mpr ⟨run, member, List.mem_range'_1.mpr (by omega)⟩
  have := fits.offset_lt _ last
  rw [Run.stop]
  omega

theorem push (fits : provenance.Fits limit) {source length : Nat}
    (bounded : source + length < limit) (room : provenance.size + length ≤ limit) :
    (provenance.push source length).Fits limit where
  filled := fits.filled.push source length
  offset_lt := by
    intro offset member
    rw [offsets_push] at member
    rcases List.mem_append.mp member with earlier | pushed
    · exact fits.offset_lt offset earlier
    · have := (List.mem_range'_1.mp pushed).2
      omega
  size_le := by rwa [size_push]

theorem take (fits : provenance.Fits limit) (size : Nat) : (provenance.take size).Fits limit where
  filled := fits.filled.take size
  offset_lt := by
    intro offset member
    rw [offsets_take] at member
    exact fits.offset_lt offset (List.mem_of_mem_take member)
  size_le := by
    rw [size_take]
    exact (Nat.min_le_right _ _).trans fits.size_le

end Fits

/-- Pushing changes the last run or comes behind it. -/
theorem pushRun_concat (run : Run) (earlier : List Run) (last : Run) :
    pushRun run (earlier ++ [last]) =
      if last.stop = run.source then earlier ++ [⟨last.source, last.length + run.length⟩]
      else earlier ++ [last] ++ [run] := by
  induction earlier with
  | nil => rfl
  | cons first earlier ih =>
    have more : pushRun run (first :: (earlier ++ [last])) =
        first :: pushRun run (earlier ++ [last]) := by
      cases earlier <;> rfl
    rw [List.cons_append, more, ih]
    split <;> rfl

theorem takeRuns_of_le {size : Nat} {runs : List Run} (filled : ∀ run ∈ runs, 0 < run.length)
    (whole : sizeOfRuns runs ≤ size) : takeRuns size runs = runs := by
  induction runs generalizing size with
  | nil => rfl
  | cons run runs ih =>
    obtain ⟨positive, later⟩ := List.forall_mem_cons.mp filled
    rw [sizeOfRuns] at whole
    rw [takeRuns, if_neg (by omega), ih later (by omega)]
    split
    · next within =>
      -- Runs behind this one would make the size larger than it is.
      cases runs with
      | nil =>
        obtain rfl : size = run.length := Nat.le_antisymm within whole
        rfl
      | cons next runs =>
        have more := (List.forall_mem_cons.mp later).1
        rw [sizeOfRuns] at whole
        omega
    · rfl

theorem takeRuns_concat_of_le {size : Nat} {runs : List Run} (last : Run)
    (within : size ≤ sizeOfRuns runs) : takeRuns size (runs ++ [last]) = takeRuns size runs := by
  induction runs generalizing size with
  | nil =>
    obtain rfl := Nat.le_zero.mp within
    rfl
  | cons run runs ih =>
    rw [sizeOfRuns] at within
    rw [List.cons_append, takeRuns, takeRuns, ih (by omega)]

theorem takeRuns_concat_of_lt {size : Nat} {runs : List Run} (last : Run)
    (beyond : sizeOfRuns runs < size) :
    takeRuns size (runs ++ [last]) =
      runs ++ [⟨last.source, min last.length (size - sizeOfRuns runs)⟩] := by
  induction runs generalizing size with
  | nil =>
    rw [sizeOfRuns] at beyond ⊢
    rw [List.nil_append, takeRuns, if_neg (by omega)]
    split
    · next within => rw [Nat.sub_zero, Nat.min_eq_right within]; rfl
    · next more => rw [Nat.sub_zero, Nat.min_eq_left (by omega), takeRuns]; rfl
  | cons run runs ih =>
    rw [sizeOfRuns] at beyond ⊢
    rw [List.cons_append, takeRuns, if_neg (by omega), if_neg (by omega), ih (by omega),
      Nat.sub_sub, List.cons_append]

theorem sizeOfRuns_concat (earlier : List Run) (last : Run) :
    sizeOfRuns (earlier ++ [last]) = sizeOfRuns earlier + last.length := by
  induction earlier with
  | nil => exact Nat.add_comm _ _
  | cons run earlier ih => rw [List.cons_append, sizeOfRuns, ih, sizeOfRuns, Nat.add_assoc]

namespace Change

/-- What a change pushes ends before `limit`. -/
def Fits (limit : Nat) : Change → Prop
  | push source length => source + length < limit
  | take _ => True

/-- The number of bytes that a change pushes. -/
def pushed : Change → Nat
  | push _ length => length
  | take _ => 0

/-- The number of bytes that changes push in all. -/
def pushedInAll : List Change → Nat
  | [] => 0
  | change :: changes => change.pushed + pushedInAll changes

theorem size_apply_le (provenance : Provenance) (change : Change) :
    (change.apply provenance).size ≤ provenance.size + change.pushed := by
  cases change with
  | push source length => rw [apply, size_push, pushed]
  | take size =>
    rw [apply, size_take]
    exact Nat.min_le_right _ _

end Change

theorem Fits.apply {limit : Nat} {provenance : Provenance} (fits : provenance.Fits limit)
    {change : Change} (bounded : change.Fits limit)
    (room : provenance.size + change.pushed ≤ limit) : (change.apply provenance).Fits limit := by
  cases change with
  | push source length => exact fits.push bounded room
  | take size => exact fits.take size

end Provenance

namespace Checked

/-- What is stored of a provenance. -/
structure RunTable where
  runs : List PlacedRun
  size : Nat
deriving DecidableEq, Repr

namespace RunTable

def empty : RunTable := ⟨[], 0⟩

/-- The table that belongs to a provenance. -/
def ofProvenance (provenance : Provenance) : RunTable :=
  ⟨placedRuns 0 provenance.runs, provenance.size⟩

/-- The provenance that a table stores. -/
def provenance (table : RunTable) : Provenance := ⟨table.runs.map PlacedRun.run⟩

@[simp] theorem provenance_ofProvenance (provenance : Provenance) :
    (ofProvenance provenance).provenance = provenance := by
  rw [RunTable.provenance, ofProvenance, map_run_placedRuns]

/-- The offset just past the last byte of a run. -/
def stop? (limit : Nat) (run : Run) : Option Nat := plus? limit run.source run.length

theorem stop?_eq {limit : Nat} {run : Run} (bounded : run.stop < limit) :
    stop? limit run = some run.stop := plus?_of_le (Nat.le_of_lt bounded)

/-! ### Changes -/

/-- Puts a run behind others, at the position at which these end, and makes it part of the last one
if it goes on where that ends. -/
def pushRun? (limit position : Nat) (run : Run) (runs : List PlacedRun) :
    Option (List PlacedRun) :=
  match runs.getLast? with
  | none => some [⟨position, run⟩]
  | some last => do
    let stop ← stop? limit last.run
    if stop = run.source then
      let length ← plus? limit last.run.length run.length
      return runs.dropLast ++ [⟨last.position, ⟨last.run.source, length⟩⟩]
    else return runs ++ [⟨position, run⟩]

/-- Adds `length` bytes copied from `source` on. -/
def push? (limit source length : Nat) (table : RunTable) : Option RunTable :=
  if length = 0 then some table
  else do
    let runs ← pushRun? limit table.size ⟨source, length⟩ table.runs
    let size ← plus? limit table.size length
    return ⟨runs, size⟩

/-- Drops what lies behind the first `size` bytes from runs in place, the last run first. -/
def dropBehind? (size : Nat) : List PlacedRun → Option (List PlacedRun)
  | [] => some []
  | placed :: earlier =>
    if size ≤ placed.position then dropBehind? size earlier
    else do
      let kept ← minus? size placed.position
      return { placed with run.length := min placed.run.length kept } :: earlier

/-- Forgets all but the first `size` bytes. -/
def take? (size : Nat) (table : RunTable) : Option RunTable :=
  if table.size ≤ size then some table
  else do
    let kept ← dropBehind? size table.runs.reverse
    return ⟨kept.reverse, size⟩

variable {limit : Nat} {provenance : Provenance}

private theorem pushRun?_eq {runs : List Run} {run : Run}
    (bounded : ∀ other ∈ runs, other.stop < limit)
    (room : Provenance.sizeOfRuns runs + run.length ≤ limit) :
    pushRun? limit (Provenance.sizeOfRuns runs) run (placedRuns 0 runs) =
      some (placedRuns 0 (Provenance.pushRun run runs)) := by
  rcases List.eq_nil_or_concat' runs with rfl | ⟨earlier, last, rfl⟩
  · rfl
  · have stops := stop?_eq (bounded last (by simp))
    have size : Provenance.sizeOfRuns (earlier ++ [last]) =
        Provenance.sizeOfRuns earlier + last.length :=
      Provenance.sizeOfRuns_concat earlier last
    have longer : plus? limit last.length run.length = some (last.length + run.length) :=
      plus?_of_le (by omega)
    rw [Provenance.pushRun_concat, pushRun?, placedRuns_append, placedRuns, placedRuns,
      List.getLast?_concat, List.dropLast_concat]
    dsimp only
    rw [stops, Option.bind_eq_bind, Option.bind_some, size]
    split
    · rw [longer, placedRuns_append]
      rfl
    · rw [placedRuns_append, placedRuns_append, size, Nat.zero_add, Nat.zero_add]
      rfl

/-- Pushing what is not too large goes to the table of the longer provenance. -/
theorem push?_eq {source length : Nat} (fits : provenance.Fits limit)
    (room : provenance.size + length ≤ limit) :
    (ofProvenance provenance).push? limit source length =
      some (ofProvenance (provenance.push source length)) := by
  rw [push?, Provenance.push]
  split
  · rfl
  · next nonempty =>
    have runs : pushRun? limit provenance.size ⟨source, length⟩ (placedRuns 0 provenance.runs) =
        some (placedRuns 0 (Provenance.pushRun ⟨source, length⟩ provenance.runs)) :=
      pushRun?_eq fits.stop_lt room
    have size := provenance.size_push source length
    rw [Provenance.push, if_neg nonempty] at size
    rw [ofProvenance, runs, ofProvenance, size, plus?_of_le room]
    rfl

private theorem dropBehind?_eq (size : Nat) (runs : List Run) :
    dropBehind? size (placedRuns 0 runs).reverse =
      some (placedRuns 0 (Provenance.takeRuns size runs)).reverse := by
  induction runs using List.reverseRecOn with
  | nil => rfl
  | append_singleton runs last ih =>
    rw [placedRuns_append, placedRuns, placedRuns, List.reverse_append, List.reverse_singleton,
      List.singleton_append, dropBehind?, Nat.zero_add]
    by_cases within : size ≤ Provenance.sizeOfRuns runs
    · rw [if_pos within, ih, Provenance.takeRuns_concat_of_le last within]
    · have beyond := Nat.lt_of_not_le within
      rw [if_neg within, minus?_of_le (Nat.le_of_lt beyond),
        Provenance.takeRuns_concat_of_lt last beyond, placedRuns_append, placedRuns, placedRuns,
        List.reverse_append, List.reverse_singleton, List.singleton_append, Nat.zero_add]
      rfl

/-- Cutting off gives the table of the shorter provenance. -/
theorem take?_eq (filled : provenance.Filled) (size : Nat) :
    (ofProvenance provenance).take? size = some (ofProvenance (provenance.take size)) := by
  rw [take?, ofProvenance]
  dsimp only
  split
  · next whole =>
    rw [Provenance.take, Provenance.takeRuns_of_le filled whole]
    rfl
  · next shorter =>
    have kept := provenance.size_take size
    rw [Nat.min_eq_left (Nat.le_of_not_le shorter)] at kept
    rw [dropBehind?_eq, Option.bind_eq_bind, Option.bind_some, List.reverse_reverse, ofProvenance,
      kept]
    rfl

/-! ### Lookups -/

/-- The source offset behind a position. -/
def origin? (limit position : Nat) (table : RunTable) : Option (Option Nat) :=
  if table.size < position then some none
  else if position = table.size then
    match table.runs.getLast? with
    | none => some none
    | some last => (stop? limit last.run).map some
  else do
    let reached := (table.runs.takeWhile (·.position ≤ position)).length
    let index ← minus? reached 1
    let placed ← table.runs[index]?
    let ahead ← minus? position placed.position
    let origin ← plus? limit placed.run.source ahead
    return some origin

/-- The source range behind a range of positions. -/
def originRange? (limit : Nat) (range : ByteRange) (table : RunTable) :
    Option (Option ByteRange) :=
  if range.stop < range.start then some none
  else do
    match ← table.origin? limit range.start with
    | none => return none
    | some start =>
      if range.start = range.stop then return some ⟨start, start⟩
      else
        let position ← minus? range.stop 1
        match ← table.origin? limit position with
        | none => return none
        | some last =>
          let stop ← plus? limit last 1
          return some ⟨start, stop⟩

theorem origin?_eq (bounded : ∀ run ∈ provenance.runs, run.stop < limit) (position : Nat) :
    (ofProvenance provenance).origin? limit position = some (provenance.origin? position) := by
  rw [origin?, ofProvenance]
  dsimp only
  split
  · next beyond => rw [origin?_eq_none_of_size_lt beyond]
  · next notBeyond =>
    split
    · next ends =>
      rw [Provenance.origin?, if_pos ends]
      rcases List.eq_nil_or_concat' provenance.runs with none | ⟨earlier, last, parts⟩
      · rw [none]
        rfl
      · have stops := stop?_eq (bounded last (by simp [parts]))
        rw [parts, placedRuns_append, placedRuns, placedRuns, List.getLast?_concat,
          List.getLast?_concat]
        dsimp only
        rw [stops]
        rfl
    · next inside =>
      obtain ⟨index, placed, count, found, before, within, origin⟩ :=
        exists_placedRun_of_lt_size (Nat.lt_of_le_of_ne (Nat.le_of_not_lt notBeyond) inside)
      have among : placed.run ∈ provenance.runs := by
        have mapped := List.mem_map_of_mem (f := PlacedRun.run) (List.mem_of_getElem? found)
        rwa [map_run_placedRuns] at mapped
      have small : placed.run.source + placed.run.length < limit := bounded _ among
      have sum : plus? limit placed.run.source (position - placed.position) =
          some (placed.run.source + (position - placed.position)) := plus?_of_le (by omega)
      simp only [count, minus?_add_right, found, minus?_of_le before, sum, origin,
        Option.bind_eq_bind, Option.bind_some, Option.pure_def]

private theorem exists_run_of_originIn? {position origin : Nat} {runs : List Run}
    (found : Provenance.originIn? position runs = some origin) :
    ∃ run ∈ runs, origin < run.stop := by
  induction runs generalizing position with
  | nil => cases found
  | cons run runs ih =>
    rw [Provenance.originIn?] at found
    split at found
    · next inside =>
      cases found
      exact ⟨run, List.mem_cons_self, Nat.add_lt_add_left inside _⟩
    · obtain ⟨later, member, below⟩ := ih found
      exact ⟨later, List.mem_cons_of_mem _ member, below⟩

private theorem lt_of_origin? (bounded : ∀ run ∈ provenance.runs, run.stop < limit)
    {position origin : Nat} (found : provenance.origin? position = some origin) :
    origin < limit := by
  rw [Provenance.origin?] at found
  split at found
  · obtain ⟨last, ends, rfl⟩ := Option.map_eq_some_iff.mp found
    exact bounded last (List.mem_of_getLast? ends)
  · obtain ⟨run, member, below⟩ := exists_run_of_originIn? found
    exact below.trans (bounded run member)

theorem originRange?_eq (bounded : ∀ run ∈ provenance.runs, run.stop < limit) (range : ByteRange) :
    (ofProvenance provenance).originRange? limit range = some (provenance.originRange? range) := by
  rw [originRange?, Provenance.originRange?]
  split
  · rfl
  · next order =>
    rw [origin?_eq bounded, Option.bind_eq_bind, Option.bind_some]
    cases provenance.origin? range.start with
    | none => rfl
    | some start =>
      dsimp only
      split
      · rfl
      · next different =>
        rw [minus?_of_le (by omega), Option.bind_eq_bind, Option.bind_some, origin?_eq bounded,
          Option.bind_some]
        cases found : provenance.origin? (range.stop - 1) with
        | none => rfl
        | some last =>
          dsimp only
          rw [plus?_of_le (lt_of_origin? bounded found)]
          rfl

/-- Every lookup in the table of a provenance is made, and answers as the provenance does. -/
structure Answers (limit : Nat) (provenance : Provenance) : Prop where
  origin : ∀ position,
    (ofProvenance provenance).origin? limit position = some (provenance.origin? position)
  originRange : ∀ range,
    (ofProvenance provenance).originRange? limit range = some (provenance.originRange? range)

theorem Answers.of_stop_lt (bounded : ∀ run ∈ provenance.runs, run.stop < limit) :
    Answers limit provenance := ⟨origin?_eq bounded, originRange?_eq bounded⟩

/-! ### Runs of changes -/

/-- A change to a table. -/
def change? (limit : Nat) (table : RunTable) : Provenance.Change → Option RunTable
  | .push source length => table.push? limit source length
  | .take size => table.take? size

/-- A change gives the table of the changed provenance, as long as there is room for what it
pushes. -/
theorem change?_eq (fits : provenance.Fits limit) {change : Provenance.Change}
    (room : provenance.size + change.pushed ≤ limit) :
    (ofProvenance provenance).change? limit change =
      some (ofProvenance (change.apply provenance)) := by
  cases change with
  | push source length => exact push?_eq fits room
  | take size => exact take?_eq fits.filled size

/-- Changes that fit never ask for too large a number, and leave the table of the provenance that is
left of them: the size and the positions at which runs begin are stored as the runs determine
them. -/
theorem foldlM_change? {changes : List Provenance.Change}
    (bounded : ∀ change ∈ changes, change.Fits limit)
    (room : Provenance.Change.pushedInAll changes ≤ limit) :
    changes.foldlM (change? limit) empty =
      some (ofProvenance (Provenance.ofChanges changes)) := by
  have later {provenance : Provenance} (fits : provenance.Fits limit)
      (room : provenance.size + Provenance.Change.pushedInAll changes ≤ limit) :
      changes.foldlM (change? limit) (ofProvenance provenance) =
        some (ofProvenance (changes.foldl Provenance.Change.apply provenance)) := by
    induction changes generalizing provenance with
    | nil => rfl
    | cons change changes ih =>
      obtain ⟨here, others⟩ := List.forall_mem_cons.mp bounded
      rw [Provenance.Change.pushedInAll] at room
      have grown := Provenance.Change.size_apply_le provenance change
      rw [List.foldlM_cons, change?_eq fits (by omega), Option.bind_eq_bind, Option.bind_some,
        List.foldl_cons]
      exact ih others (by omega) (fits.apply here (by omega)) (by omega)
  have nothing : (∅ : Provenance).size = 0 := rfl
  exact later .empty (by rwa [nothing, Nat.zero_add])

end RunTable

end Checked

end CommentProse
