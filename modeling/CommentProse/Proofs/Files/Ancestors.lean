import CommentProse.Files.Tree
import Mathlib.Data.List.Infix
import Mathlib.Data.List.TakeWhile

/-! # The way up from a path

A path stands for its components: what is between its slashes, save what says nothing, and an
anchor at the front. The parent of a path has its components but the last
(`Path.components_of_parent?`), and there is none where no component can be taken away
(`Path.parent?_eq_none_iff`). So the way up leads through all front parts of the components, the
longest first (`Path.map_components_ancestors`).
-/

namespace CommentProse

namespace FileTree

theorem components_ne_nil (path : Path) : components path ≠ [] := by
  cases path with
  | nil => nofun
  | cons c path =>
    rw [components]
    split
    · nofun
    · split <;> nofun

theorem components_append_slash (front back : Path) :
    components (front ++ '/' :: back) =
      components front ++ components back := by
  induction front with
  | nil => rfl
  | cons c front ih =>
    rw [List.cons_append, components, components, ih]
    split
    · rfl
    · cases parts : components front with
      | nil => exact absurd parts (components_ne_nil front)
      | cons first rest => rfl

theorem components_of_slashless {name : Path} (slashless : '/' ∉ name) :
    components name = [name] := by
  induction name with
  | nil => rfl
  | cons c name ih =>
    obtain ⟨other, slashless⟩ := not_or.mp (mt List.mem_cons.mpr slashless)
    rw [components, if_neg (Ne.symm other), ih slashless]

end FileTree

namespace Path

/-- What is between the slashes of a path, save what says nothing. -/
def names (path : Path) : List (List Char) :=
  (FileTree.components path).filter (!FileTree.isIdle ·)

/-- The components of a path. A slash or a single dot at the front is a component of its own. -/
def components (path : Path) : List (List Char) :=
  (if path.anchorLength = 0 then [] else [path.take path.anchorLength]) ++
    names (path.drop path.anchorLength)

/-! ### Names -/

theorem names_append_slash (front back : Path) :
    names (front ++ '/' :: back) = names front ++ names back := by
  rw [names, FileTree.components_append_slash, List.filter_append]
  rfl

/-- What is dropped at the end of a path says nothing. -/
theorem names_dropIdle (reversed : List Char) :
    names (dropIdle reversed).reverse = names reversed.reverse := by
  fun_induction dropIdle reversed with
  | case1 reversed ih =>
    rw [ih, List.reverse_cons, names_append_slash]
    exact (List.append_nil _).symm
  | case2 reversed ih =>
    rw [ih, List.reverse_cons, List.reverse_cons, List.append_assoc, List.singleton_append,
      names_append_slash]
    exact (List.append_nil _).symm
  | case3 => rfl
  | case4 => rfl

/-! ### The end of a path -/

/-- A path, given in reverse, that does not end in a slash or a single dot. -/
structure Settled (reversed : List Char) : Prop where
  slash : ∀ rest, reversed ≠ '/' :: rest
  slashDot : ∀ rest, reversed ≠ '.' :: '/' :: rest
  dot : reversed ≠ ['.']

theorem settled_dropIdle (reversed : List Char) : Settled (dropIdle reversed) := by
  fun_induction dropIdle reversed with
  | case1 _ ih => exact ih
  | case2 _ ih => exact ih
  | case3 => constructor <;> simp
  | case4 reversed slash slashDot dot => exact ⟨slash, slashDot, dot⟩

/-- What is dropped at the end of a path begins with a slash, unless it is the whole path. -/
theorem dropIdle_cases (reversed : List Char) :
    dropIdle reversed = [] ∨ dropIdle reversed = reversed ∨
      ∃ idle, reversed = idle ++ '/' :: dropIdle reversed := by
  fun_induction dropIdle reversed with
  | case1 reversed ih =>
    rcases ih with none | same | ⟨idle, parts⟩
    · exact .inl none
    · exact .inr (.inr ⟨[], by rw [same]; rfl⟩)
    · exact .inr (.inr ⟨'/' :: idle, by rw [List.cons_append, ← parts]⟩)
  | case2 reversed ih =>
    rcases ih with none | same | ⟨idle, parts⟩
    · exact .inl none
    · exact .inr (.inr ⟨['.'], by rw [same]; rfl⟩)
    · exact .inr (.inr ⟨'.' :: '/' :: idle, by rw [List.cons_append, List.cons_append, ← parts]⟩)
  | case3 => exact .inl rfl
  | case4 => exact .inr (.inl rfl)

/-- The last name of a path that is given in reverse. -/
def lastName (reversed : List Char) : List Char := (reversed.takeWhile (· != '/')).reverse

/-- The text in front of the last name, without idle slashes and dots at its end. -/
def beforeLast (reversed : List Char) : List Char :=
  (dropIdle (reversed.dropWhile (· != '/'))).reverse

theorem slash_notMem_lastName (reversed : List Char) : '/' ∉ lastName reversed := by
  intro member
  have other := List.mem_takeWhile_imp (List.mem_reverse.mp member)
  simp at other

theorem reverse_eq_append_lastName (reversed : List Char) :
    reversed.reverse = (reversed.dropWhile (· != '/')).reverse ++ lastName reversed := by
  rw [lastName, ← List.reverse_append, List.takeWhile_append_dropWhile]

/-- The last name stands behind a slash, unless it is the whole path. -/
theorem dropWhile_slash_cases (reversed : List Char) :
    reversed.dropWhile (· != '/') = [] ∨ ∃ front, reversed.dropWhile (· != '/') = '/' :: front := by
  have first := List.head?_dropWhile_not (· != '/') reversed
  cases rest : reversed.dropWhile (· != '/') with
  | nil => exact .inl rfl
  | cons c front =>
    rw [rest] at first
    exact .inr ⟨front, by simpa using first⟩

/-- The text in front of the last name was cut off at a slash. -/
theorem beforeLast_cases (reversed : List Char) :
    beforeLast reversed = [] ∨
      ∃ behind, reversed.reverse = beforeLast reversed ++ '/' :: behind := by
  rw [reverse_eq_append_lastName, beforeLast]
  rcases dropIdle_cases (reversed.dropWhile (· != '/')) with none | same | ⟨idle, parts⟩
  · exact .inl (by rw [none, List.reverse_nil])
  · rcases dropWhile_slash_cases reversed with none | ⟨front, slash⟩
    · exact .inl (by rw [none]; rfl)
    · exact absurd (same.trans slash) ((settled_dropIdle _).slash front)
  · refine .inr ⟨idle.reverse ++ lastName reversed, ?_⟩
    conv_lhs => rw [parts]
    simp only [List.reverse_append, List.reverse_cons, List.append_assoc, List.cons_append,
      List.nil_append]

/-- A path that does not end idly names one thing more than the text in front of its last name. -/
theorem names_of_settled {reversed : List Char} (settled : Settled reversed)
    (nonempty : reversed ≠ []) :
    names reversed.reverse = names (beforeLast reversed) ++ [lastName reversed] := by
  have whole := List.takeWhile_append_dropWhile (p := (· != '/')) (l := reversed)
  have visible : FileTree.isIdle (lastName reversed) = false := by
    rw [FileTree.isIdle, Bool.or_eq_false_iff, List.isEmpty_eq_false_iff, beq_eq_false_iff_ne,
      lastName, Ne, Ne, List.reverse_eq_nil_iff, List.reverse_eq_iff]
    constructor
    · intro none
      rcases dropWhile_slash_cases reversed with rest | ⟨front, rest⟩
      · exact nonempty (by rw [← whole, none, rest]; rfl)
      · exact settled.slash front (by rw [← whole, none, rest]; rfl)
    · intro dot
      rcases dropWhile_slash_cases reversed with rest | ⟨front, rest⟩
      · exact settled.dot (by rw [← whole, dot, rest]; rfl)
      · exact settled.slashDot front (by rw [← whole, dot, rest]; rfl)
  have last : names (lastName reversed) = [lastName reversed] := by
    rw [names, FileTree.components_of_slashless (slash_notMem_lastName reversed),
      List.filter_singleton, visible]
    rfl
  rw [beforeLast, names_dropIdle, reverse_eq_append_lastName]
  rcases dropWhile_slash_cases reversed with rest | ⟨front, rest⟩
  · rw [rest, List.reverse_nil, List.nil_append, last]
    rfl
  · rw [rest, List.reverse_cons, List.append_assoc, List.singleton_append, names_append_slash,
      names_append_slash, last]
    simp [names, FileTree.components, FileTree.isIdle]

/-! ### Parents -/

theorem anchor_cases {path : Path} (anchored : path.anchorLength ≠ 0) :
    path.take path.anchorLength = ['/'] ∨ path.take path.anchorLength = ['.'] := by
  revert anchored
  fun_cases anchorLength path with
  | case1 => exact fun _ => .inl rfl
  | case2 => exact fun _ => .inr rfl
  | case3 => exact fun _ => .inr rfl
  | case4 => exact fun anchored => absurd rfl anchored

/-- A path that is cut off at a slash has the same anchor. -/
theorem anchorLength_take_append {path front : Path}
    (cut : front = [] ∨ ∃ behind, path.drop path.anchorLength = front ++ '/' :: behind) :
    anchorLength (path.take path.anchorLength ++ front) = path.anchorLength := by
  rcases cut with rfl | ⟨behind, parts⟩
  · fun_cases anchorLength path <;> rfl
  · revert parts
    fun_cases anchorLength path with
    | case1 => exact fun _ => rfl
    | case2 =>
      intro parts
      cases front <;> cases parts
    | case3 rest =>
      intro parts
      cases front with
      | nil => rfl
      | cons c front =>
        obtain rfl : '/' = c := (List.cons.inj parts).1
        rfl
    | case4 _ slash _ dotSlash =>
      intro parts
      rw [List.drop_zero] at parts
      rw [List.take_zero, List.nil_append]
      fun_cases anchorLength front with
      | case1 front => exact (slash _ parts).elim
      | case2 => exact (dotSlash _ parts).elim
      | case3 front => exact (dotSlash _ parts).elim
      | case4 => rfl

/-- The part of a path that its parent keeps is cut off at a slash. -/
theorem beforeLast_dropIdle_cases (path : Path) :
    beforeLast (dropIdle path.reverse) = [] ∨
      ∃ behind, path = beforeLast (dropIdle path.reverse) ++ '/' :: behind := by
  have kept : ∃ idle, path = (dropIdle path.reverse).reverse ++ idle := by
    rcases dropIdle_cases path.reverse with none | same | ⟨idle, parts⟩
    · exact ⟨path, by rw [none]; rfl⟩
    · exact ⟨[], by rw [same]; simp⟩
    · refine ⟨'/' :: idle.reverse, ?_⟩
      have whole := congrArg List.reverse parts
      simpa using whole
  obtain ⟨idle, parts⟩ := kept
  refine (beforeLast_cases (dropIdle path.reverse)).imp_right ?_
  rintro ⟨behind, cut⟩
  refine ⟨behind ++ idle, ?_⟩
  rw [← List.cons_append, ← List.append_assoc, ← cut]
  exact parts

/-- What is in front of the last name stands for all components but this one. -/
theorem components_take_append {path front : Path}
    (cut : front = [] ∨ ∃ behind, path.drop path.anchorLength = front ++ '/' :: behind) :
    components (path.take path.anchorLength ++ front) =
      (if path.anchorLength = 0 then [] else [path.take path.anchorLength]) ++ names front := by
  have size : (path.take path.anchorLength).length = path.anchorLength := by
    fun_cases anchorLength path <;> rfl
  rw [components, anchorLength_take_append cut, List.take_left' size, List.drop_left' size]

/-- A parent has the components of its path but the last, which is no slash. -/
theorem components_of_parent? {path parent : Path} (isParent : path.parent? = some parent) :
    ∃ last, path.components = parent.components ++ [last] ∧ last ≠ ['/'] := by
  have same := names_dropIdle (path.drop path.anchorLength).reverse
  rw [List.reverse_reverse] at same
  rw [parent?] at isParent
  split at isParent
  · next none =>
    split at isParent
    · next dot =>
      cases isParent
      have anchored : path.anchorLength ≠ 0 := by
        intro zero
        rw [zero] at dot
        cases dot
      refine ⟨['.'], ?_, by decide⟩
      rw [components, if_neg anchored, dot, ← same, none]
      rfl
    · cases isParent
  · next nonempty =>
    cases isParent
    have settled := settled_dropIdle (path.drop path.anchorLength).reverse
    refine ⟨lastName (dropIdle (path.drop path.anchorLength).reverse), ?_, ?_⟩
    · change _ = components (_ ++ beforeLast _) ++ _
      rw [components_take_append (beforeLast_dropIdle_cases _), List.append_assoc,
        ← names_of_settled settled nonempty, same]
      rfl
    · intro slash
      exact slash_notMem_lastName _ (slash ▸ List.mem_singleton_self _)

/-- A path without components has no parent, and neither has a slash. -/
theorem parent?_eq_none_iff {path : Path} :
    path.parent? = none ↔ path.components = [] ∨ path.components = [['/']] := by
  constructor
  · intro orphan
    have same := names_dropIdle (path.drop path.anchorLength).reverse
    rw [List.reverse_reverse] at same
    rw [parent?] at orphan
    split at orphan
    · next none =>
      split at orphan
      · cases orphan
      · next noDot =>
        have unnamed : names (path.drop path.anchorLength) = [] := by
          rw [← same, none]
          rfl
        rw [components, unnamed, List.append_nil]
        by_cases free : path.anchorLength = 0
        · exact .inl (if_pos free)
        · rw [if_neg free]
          exact .inr (List.singleton_inj.mpr ((anchor_cases free).resolve_right noDot))
    · cases orphan
  · intro bare
    cases isParent : path.parent? with
    | none => rfl
    | some parent =>
      obtain ⟨last, parts, other⟩ := components_of_parent? isParent
      rcases bare with none | slash
      · simp [none] at parts
      · rw [slash] at parts
        obtain ⟨-, last_eq⟩ := List.append_inj' (parts.symm.trans (List.nil_append _).symm) rfl
        exact absurd (List.cons.inj last_eq).1 other

/-! ### The way up -/

/-- The way up from a path leads through all front parts of its components, the longest first. A
path from the root ends there. -/
theorem map_components_ancestors (path : Path) :
    path.ancestors.map components =
      (if path.components.head? = some ['/'] then path.components.inits.tail
        else path.components.inits).reverse := by
  fun_induction ancestors path with
  | case1 path parent above ih =>
    obtain ⟨last, parts, other⟩ := components_of_parent? above
    have rooted : path.components.head? = some ['/'] ↔ parent.components.head? = some ['/'] := by
      rw [parts]
      cases parent.components with
      | nil => simpa using other
      | cons first rest => rfl
    have fronts : path.components.inits = parent.components.inits ++ [path.components] := by
      rw [parts, List.inits_append]
      rfl
    have nonempty : parent.components.inits ≠ [] :=
      List.ne_nil_of_mem ((List.mem_inits [] _).mpr List.nil_prefix)
    rw [List.map_cons, ih, fronts]
    simp only [rooted]
    split
    · rw [List.tail_append_of_ne_nil nonempty, List.reverse_append]
      rfl
    · rw [List.reverse_append]
      rfl
  | case2 path orphan =>
    rcases parent?_eq_none_iff.mp orphan with none | slash
    · simp [none]
    · simp [slash]

end Path

end CommentProse
