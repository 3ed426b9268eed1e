import CommentProse.Proofs.Checked.Text
import CommentProse.Prose.Provenance

/-! # Checked lookups in a provenance

A provenance is looked up by the positions at which its runs begin: the run behind a position is
the last one that begins at or before it, and it is found by counting these runs and going one back.
This needs a number that is not negative and a run that is there. `exists_placedRun` says that every
position within the runs has them, and `origin?_eq` that the outcome is that of the unchecked
lookup.
-/

namespace CommentProse

namespace Checked

/-- A run with the position at which it begins. -/
structure PlacedRun where
  position : Nat
  run : Run
deriving DecidableEq, Repr

/-- Runs with the positions at which they begin, the first at `start`. -/
def placedRuns (start : Nat) : List Run → List PlacedRun
  | [] => []
  | run :: runs => ⟨start, run⟩ :: placedRuns (start + run.length) runs

theorem placedRuns_append (start : Nat) (front back : List Run) :
    placedRuns start (front ++ back) =
      placedRuns start front ++ placedRuns (start + Provenance.sizeOfRuns front) back := by
  induction front generalizing start with
  | nil => rfl
  | cons run front ih =>
    rw [List.cons_append, placedRuns, ih, placedRuns, Provenance.sizeOfRuns, List.cons_append,
      Nat.add_assoc]

@[simp] theorem map_run_placedRuns (start : Nat) (runs : List Run) :
    (placedRuns start runs).map PlacedRun.run = runs := by
  induction runs generalizing start with
  | nil => rfl
  | cons run runs ih => rw [placedRuns, List.map_cons, ih]

private theorem start_le_of_mem_placedRuns {start : Nat} {runs : List Run} :
    ∀ placed ∈ placedRuns start runs, start ≤ placed.position := by
  induction runs generalizing start with
  | nil => simp [placedRuns]
  | cons run runs ih =>
    intro placed member
    rcases List.mem_cons.mp member with rfl | later
    · exact Nat.le_refl _
    · exact (Nat.le_add_right _ _).trans (ih placed later)

/-- Some run begins at or before each position within runs, and the last such run has it. -/
theorem exists_placedRun {start position : Nat} {runs : List Run} (lower : start ≤ position)
    (upper : position < start + Provenance.sizeOfRuns runs) :
    ∃ index placed,
      ((placedRuns start runs).takeWhile (·.position ≤ position)).length = index + 1 ∧
      (placedRuns start runs)[index]? = some placed ∧
      placed.position ≤ position ∧ position < placed.position + placed.run.length ∧
      Provenance.originIn? (position - start) runs =
        some (placed.run.source + (position - placed.position)) := by
  induction runs generalizing start with
  | nil =>
    simp only [Provenance.sizeOfRuns] at upper
    omega
  | cons run runs ih =>
    rw [placedRuns, List.takeWhile_cons_of_pos (by simpa using lower), Provenance.originIn?]
    by_cases here : position - start < run.length
    · have none : (placedRuns (start + run.length) runs).takeWhile (·.position ≤ position) =
          [] := by
        cases later : placedRuns (start + run.length) runs with
        | nil => rfl
        | cons placed others =>
          have behind := start_le_of_mem_placedRuns placed (later ▸ List.mem_cons_self)
          exact List.takeWhile_cons_of_neg (by simp only [decide_eq_true_eq]; omega)
      rw [none, if_pos here]
      refine ⟨0, _, rfl, rfl, lower, ?_, rfl⟩
      dsimp only
      omega
    · rw [Provenance.sizeOfRuns] at upper
      obtain ⟨index, placed, count, found, before, inside, origin⟩ :=
        @ih (start + run.length) (by omega) (by omega)
      refine ⟨index + 1, placed, by rw [List.length_cons, count], by simpa using found, before,
        inside, ?_⟩
      rw [if_neg here, Nat.sub_sub]
      exact origin

theorem originIn?_eq_none {position : Nat} {runs : List Run}
    (beyond : Provenance.sizeOfRuns runs ≤ position) :
    Provenance.originIn? position runs = none := by
  induction runs generalizing position with
  | nil => rfl
  | cons run runs ih =>
    rw [Provenance.sizeOfRuns] at beyond
    rw [Provenance.originIn?, if_neg (by omega)]
    exact ih (by omega)

/-- So it is with every position before the end of a provenance. -/
theorem exists_placedRun_of_lt_size {position : Nat} {provenance : Provenance}
    (within : position < provenance.size) :
    ∃ index placed,
      ((placedRuns 0 provenance.runs).takeWhile (·.position ≤ position)).length = index + 1 ∧
      (placedRuns 0 provenance.runs)[index]? = some placed ∧
      placed.position ≤ position ∧ position < placed.position + placed.run.length ∧
      provenance.origin? position = some (placed.run.source + (position - placed.position)) := by
  have upper : position < 0 + Provenance.sizeOfRuns provenance.runs := by rwa [Nat.zero_add]
  obtain ⟨index, placed, count, found, before, inside, origin⟩ :=
    exists_placedRun (Nat.zero_le position) upper
  rw [Provenance.origin?, if_neg (Nat.ne_of_lt within)]
  exact ⟨index, placed, count, found, before, inside, origin⟩

theorem origin?_eq_none_of_size_lt {position : Nat} {provenance : Provenance}
    (beyond : provenance.size < position) : provenance.origin? position = none := by
  rw [Provenance.origin?, if_neg (Nat.ne_of_gt beyond)]
  exact originIn?_eq_none (Nat.le_of_lt beyond)

/-- The source offset behind a position. -/
def origin? (position : Nat) (provenance : Provenance) : Option (Option Nat) :=
  if provenance.size < position then some none
  else if position = provenance.size then some (provenance.runs.getLast?.map Run.stop)
  else do
    let reached := (provenance.points.takeWhile (·.1 ≤ position)).length
    let index ← minus? reached 1
    let point ← provenance.points[index]?
    let ahead ← minus? position point.1
    return some (point.2 + ahead)

/-- The points of runs are where the runs begin. -/
private theorem points_go_eq (start : Nat) (runs : List Run) :
    Provenance.points.go start runs =
      (placedRuns start runs).map fun placed => (placed.position, placed.run.source) := by
  induction runs generalizing start with
  | nil => rfl
  | cons run runs ih => rw [Provenance.points.go, placedRuns, List.map_cons, ih]

theorem origin?_eq (position : Nat) (provenance : Provenance) :
    origin? position provenance = some (provenance.origin? position) := by
  rw [origin?]
  split
  · next beyond => rw [origin?_eq_none_of_size_lt beyond]
  · next notBeyond =>
    split
    · next ends => rw [Provenance.origin?, if_pos ends]
    · next inside =>
      obtain ⟨index, placed, count, found, before, -, origin⟩ :=
        exists_placedRun_of_lt_size (Nat.lt_of_le_of_ne (Nat.le_of_not_lt notBeyond) inside)
      have points : provenance.points = (placedRuns 0 provenance.runs).map
          fun placed => (placed.position, placed.run.source) := points_go_eq 0 _
      have reached : (provenance.points.takeWhile (·.1 ≤ position)).length = index + 1 := by
        rw [points, List.takeWhile_map, List.length_map]
        exact count
      have there : provenance.points[index]? = some (placed.position, placed.run.source) := by
        rw [points, List.getElem?_map, found]
        rfl
      simp only [reached, minus?_add_right, there, minus?_of_le before, origin, Option.bind_eq_bind,
        Option.bind_some, Option.pure_def]

end Checked

end CommentProse
