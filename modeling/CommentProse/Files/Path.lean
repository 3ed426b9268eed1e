/-! # File paths

Paths are taken as they are written: nothing is looked up, and `..` is a component like any other.
A path is split at slashes; empty components and `.` say nothing, except for a `.` at the front of a
relative path. Every parent is shorter than its path, so a walk upwards ends.
-/

namespace CommentProse

/-- A path as it is written. -/
abbrev Path := List Char

namespace Path

/-- The path of `file` seen from `directory`. -/
def join (directory file : Path) : Path :=
  if file.head? = some '/' then file
  else if directory.isEmpty || directory.getLast? == some '/' then directory ++ file
  else directory ++ '/' :: file

/-- How many characters at the front are no part of the components: a slash, or a leading dot. -/
def anchorLength (path : Path) : Nat :=
  match path with
  | '/' :: _ => 1
  | ['.'] => 1
  | '.' :: '/' :: _ => 1
  | _ => 0

/-- Drops slashes and single dots from the end of a path that is given in reverse. -/
def dropIdle : List Char → List Char
  | '/' :: reversed => dropIdle reversed
  | '.' :: '/' :: reversed => dropIdle reversed
  | ['.'] => []
  | reversed => reversed

/-- The path without its last component, if it has one. -/
def parent? (path : Path) : Option Path :=
  let anchor := path.take path.anchorLength
  match dropIdle (path.drop path.anchorLength).reverse with
  | [] => if anchor = ['.'] then some [] else none
  | reversed => some (anchor ++ (dropIdle (reversed.dropWhile (· != '/'))).reverse)

private theorem length_dropIdle_le (reversed : List Char) :
    (dropIdle reversed).length ≤ reversed.length := by
  fun_induction dropIdle reversed with
  | case1 => simp only [List.length_cons]; omega
  | case2 => simp only [List.length_cons]; omega
  | case3 => simp
  | case4 => exact Nat.le_refl _

private theorem head?_dropIdle (reversed : List Char) : (dropIdle reversed).head? ≠ some '/' := by
  fun_induction dropIdle reversed with
  | case1 _ ih => exact ih
  | case2 _ ih => exact ih
  | case3 => simp
  | case4 reversed slash _ _ =>
    cases reversed with
    | nil => simp
    | cons c reversed =>
      intro starts
      exact slash reversed (by rw [Option.some.inj starts])

private theorem length_dropWhile_path_le (p : Char → Bool) (text : List Char) :
    (text.dropWhile p).length ≤ text.length :=
  (List.dropWhile_sublist p).length_le

theorem length_parent?_lt {path parent : Path} (isParent : path.parent? = some parent) :
    parent.length < path.length := by
  have cut : (path.take path.anchorLength).length + (path.drop path.anchorLength).length =
      path.length := by
    rw [← List.length_append, List.take_append_drop]
  have idle := length_dropIdle_le (path.drop path.anchorLength).reverse
  have head := head?_dropIdle (path.drop path.anchorLength).reverse
  simp only [parent?] at isParent
  split at isParent
  · split at isParent
    · next dot =>
      cases isParent
      rw [dot] at cut
      simp only [List.length_cons, List.length_nil] at cut ⊢
      omega
    · simp at isParent
  · next visible =>
    cases isParent
    generalize dropIdle (path.drop path.anchorLength).reverse = reversed at *
    cases reversed with
    | nil => exact absurd rfl visible
    | cons c reversed =>
      have notSlash : (c != '/') = true := by simpa using head
      have shorter := length_dropIdle_le (reversed.dropWhile (· != '/'))
      have dropped := length_dropWhile_path_le (· != '/') reversed
      simp only [List.dropWhile_cons, notSlash, if_true, List.length_append, List.length_reverse,
        List.length_cons] at idle ⊢
      omega

/-- The path and its parents, the nearest first. -/
def ancestors (path : Path) : List Path :=
  match _above : path.parent? with
  | some parent => path :: ancestors parent
  | none => [path]
termination_by path.length
decreasing_by exact length_parent?_lt _above

end Path

end CommentProse
