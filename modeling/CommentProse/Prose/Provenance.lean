import CommentProse.Text.Basic

/-! # Where text was copied from

A text that is put together from stretches of a source keeps, for each of its bytes, the offset of
the byte it stands for. `Provenance` holds these offsets as runs of consecutive ones. The view of a
provenance is `origin?`, the offset behind each position; the position just past the end stands for
the place just past the last byte copied. The size, and the positions at which runs begin, follow
from the runs; `Checked.RunTable` is a provenance that keeps them.
-/

namespace CommentProse

/-- Bytes copied from consecutive offsets. -/
structure Run where
  /-- The offset of the first byte. -/
  source : Nat
  length : Nat
deriving DecidableEq, Repr

namespace Run

/-- The offset just past the last byte. -/
def stop (run : Run) : Nat := run.source + run.length

end Run

/-- The source offsets of the bytes of a text. -/
structure Provenance where
  runs : List Run
deriving DecidableEq, Repr

namespace Provenance

def empty : Provenance := ⟨[]⟩

instance : EmptyCollection Provenance := ⟨empty⟩

/-- The number of bytes in runs. -/
def sizeOfRuns : List Run → Nat
  | [] => 0
  | run :: runs => run.length + sizeOfRuns runs

/-- The number of bytes. -/
def size (provenance : Provenance) : Nat := sizeOfRuns provenance.runs

def isEmpty (provenance : Provenance) : Bool := provenance.size == 0

/-- Puts a run behind others, and makes it part of the last one if it goes on where that ends. -/
def pushRun (run : Run) : List Run → List Run
  | [] => [run]
  | [last] => if last.stop = run.source then [⟨last.source, last.length + run.length⟩]
      else [last, run]
  | first :: runs => first :: pushRun run runs

/-- Adds `length` bytes copied from `source` on. -/
def push (source length : Nat) (provenance : Provenance) : Provenance :=
  if length = 0 then provenance else ⟨pushRun ⟨source, length⟩ provenance.runs⟩

/-- The runs of the first `size` bytes. -/
def takeRuns : Nat → List Run → List Run
  | _, [] => []
  | size, run :: runs =>
    if size = 0 then []
    else if size ≤ run.length then [⟨run.source, size⟩]
    else run :: takeRuns (size - run.length) runs

/-- Forgets all but the first `size` bytes. -/
def take (size : Nat) (provenance : Provenance) : Provenance :=
  ⟨takeRuns size provenance.runs⟩

/-- The offset behind a position in runs. -/
def originIn? (position : Nat) : List Run → Option Nat
  | [] => none
  | run :: runs =>
    if position < run.length then some (run.source + position)
    else originIn? (position - run.length) runs

/-- The source offset behind a position. -/
def origin? (position : Nat) (provenance : Provenance) : Option Nat :=
  if position = provenance.size then provenance.runs.getLast?.map Run.stop
  else originIn? position provenance.runs

/-- The source range behind a range of positions. It ends just past the last byte in the range, so
that it never takes in source text that was left out behind that byte. -/
def originRange? (range : ByteRange) (provenance : Provenance) : Option ByteRange :=
  if range.stop < range.start then none
  else
    match provenance.origin? range.start with
    | none => none
    | some start =>
      if range.start = range.stop then some ⟨start, start⟩
      else (provenance.origin? (range.stop - 1)).map fun last => ⟨start, last + 1⟩

/-- The positions at which runs begin, each with the source offset behind it. -/
def points (provenance : Provenance) : List (Nat × Nat) :=
  go 0 provenance.runs
where
  /-- The points of runs of which the first begins at `position`. -/
  go (position : Nat) : List Run → List (Nat × Nat)
    | [] => []
    | run :: runs => (position, run.source) :: go (position + run.length) runs

/-! ### The size -/

@[simp] theorem size_empty : empty.size = 0 := rfl

private theorem sizeOfRuns_pushRun (run : Run) (runs : List Run) :
    sizeOfRuns (pushRun run runs) = sizeOfRuns runs + run.length := by
  fun_induction pushRun run runs with
  | case1 => simp [sizeOfRuns]
  | case2 => simp [sizeOfRuns]
  | case3 => simp [sizeOfRuns]
  | case4 first runs _ ih => simp [sizeOfRuns, ih, Nat.add_assoc]

@[simp] theorem size_push (source length : Nat) (provenance : Provenance) :
    (provenance.push source length).size = provenance.size + length := by
  rw [push]
  split
  · next zero => simp [zero]
  · exact sizeOfRuns_pushRun _ _

@[simp] theorem size_take (size : Nat) (provenance : Provenance) :
    (provenance.take size).size = min size provenance.size := by
  obtain ⟨runs⟩ := provenance
  simp only [take, Provenance.size]
  induction runs generalizing size with
  | nil => simp [takeRuns, sizeOfRuns]
  | cons run runs ih =>
    rw [takeRuns]
    split
    · simp_all [sizeOfRuns]
    · split
      · simp only [sizeOfRuns]; omega
      · simp only [sizeOfRuns, ih]; omega

end Provenance

end CommentProse
