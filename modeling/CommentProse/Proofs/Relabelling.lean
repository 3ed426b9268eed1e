import CommentProse.Proofs.Markup.Kinds

/-! # Making markup of ranges, byte by byte

Making markup of a range cuts spans at its ends, so the order in which ranges are taken decides
where spans are cut. It does not decide what the bytes are: as a function from bytes to kinds
(`Span.kindAt?`) the spans change inside the range only, and there only their role. What is done
for one range is done for many by induction, and a byte is markup as soon as one range has it.
-/

namespace CommentProse

namespace Span

/-! ### The kind of a byte -/

/-- The role of a byte, and whether it divides prose, told by the first span that has the byte. -/
def kindAt? (spans : List Span) (offset : Nat) : Option (Role × Bool) :=
  (spans.find? (offset ∈ ·.range)).map fun span => (span.role, span.divides)

variable {start middle stop offset : Nat} {spans : List Span} {range : ByteRange}

/-- Where spans do not overlap, any span that has a byte tells its kind. -/
theorem Tiles.kindAt?_eq_some_iff (tiles : Tiles start stop spans) {role : Role} {divides : Bool} :
    kindAt? spans offset = some (role, divides) ↔ KindAt spans offset role divides := by
  rw [kindAt?, Option.map_eq_some_iff]
  constructor
  · rintro ⟨span, found, same⟩
    obtain ⟨rfl, rfl⟩ := Prod.mk.inj same
    have inside := List.find?_some found
    exact ⟨span, List.mem_of_find?_eq_some found, of_decide_eq_true inside, rfl, rfl⟩
  · rintro ⟨span, member, inside, rfl, rfl⟩
    obtain ⟨first, found⟩ := Option.isSome_iff_exists.mp
      ((List.find?_isSome (p := (offset ∈ ·.range))).mpr ⟨span, member, decide_eq_true inside⟩)
    have here := List.find?_some found
    obtain rfl := tiles.eq_of_mem (List.mem_of_find?_eq_some found) member (of_decide_eq_true here)
      inside
    exact ⟨first, found, rfl⟩

/-- The bytes that have a kind are those from `start` to `stop`. -/
theorem Tiles.isSome_kindAt?_iff (tiles : Tiles start stop spans) :
    (kindAt? spans offset).isSome ↔ start ≤ offset ∧ offset < stop := by
  rw [kindAt?, Option.isSome_map, List.find?_isSome]
  constructor
  · rintro ⟨span, member, inside⟩
    have bounds := tiles.pairwise.2 span member
    have inside := ByteRange.mem_iff.mp (of_decide_eq_true inside)
    omega
  · rintro ⟨lower, upper⟩
    obtain ⟨span, member, inside⟩ := tiles.exists_mem lower upper
    exact ⟨span, member, decide_eq_true inside⟩

/-! ### One range -/

theorem Tiles.append {front back : List Span} (first : Tiles start middle front)
    (second : Tiles middle stop back) : Tiles start stop (front ++ back) := by
  induction front generalizing start with
  | nil => exact (show start = middle from first) ▸ second
  | cons span front ih => exact ⟨first.1, first.2.1, ih first.2.2⟩

/-- The parts of a span tile it. -/
theorem tiles_relabel (range : ByteRange) {span : Span}
    (nonempty : span.range.start < span.range.stop) :
    Tiles span.range.start span.range.stop (relabel range span) := by
  have side (within : ByteRange) (forward : within.start ≤ within.stop) :
      Tiles within.start within.stop
        (if within.start < within.stop then [{ span with range := within }] else []) := by
    split
    · next inside => exact ⟨rfl, inside, rfl⟩
    · next empty => exact Nat.le_antisymm forward (Nat.not_lt.mp empty)
  rw [relabel]
  dsimp only
  split
  · exact ⟨rfl, nonempty, rfl⟩
  · next cut =>
    rw [not_or, Nat.not_le] at cut
    have before := side ⟨span.range.start, max span.range.start range.start⟩ (Nat.le_max_left _ _)
    have after := side ⟨min span.range.stop range.stop, span.range.stop⟩ (Nat.min_le_left _ _)
    exact before.append ⟨rfl, cut.1, after⟩

/-- Making markup of a range leaves no gap, no overlap and no empty span. -/
theorem Tiles.relabelAll (tiles : Tiles start stop spans) (range : ByteRange) :
    Tiles start stop (Span.relabelAll range spans) := by
  induction spans generalizing start with
  | nil => exact tiles
  | cons span spans ih =>
    obtain ⟨rfl, nonempty, rest⟩ := tiles
    rw [Span.relabelAll, List.flatMap_cons]
    exact (tiles_relabel range nonempty).append (ih rest)

/-- The bytes of the range become markup; all others keep their role, and all keep whether they
divide prose. -/
theorem Tiles.kindAt?_relabelAll (tiles : Tiles start stop spans) (range : ByteRange)
    (offset : Nat) :
    kindAt? (Span.relabelAll range spans) offset =
      (kindAt? spans offset).map fun kind =>
        (if offset ∈ range then .markup else kind.1, kind.2) := by
  refine Option.ext fun ⟨role, divides⟩ => ?_
  rw [(tiles.relabelAll range).kindAt?_eq_some_iff, kindAt_relabelAll_iff, Option.map_eq_some_iff]
  constructor
  · rintro ⟨former, here, same⟩
    exact ⟨(former, divides), tiles.kindAt?_eq_some_iff.mpr here, by rw [same]⟩
  · rintro ⟨⟨former, flag⟩, here, same⟩
    obtain ⟨role_eq, rfl⟩ := Prod.mk.inj same
    exact ⟨former, tiles.kindAt?_eq_some_iff.mp here, role_eq⟩

/-- A span stays whole if it is markup or has no byte in the range. -/
theorem relabel_of_apart {span : Span}
    (apart : span.role = .markup ∨ ∀ offset ∈ span.range, offset ∉ range) :
    relabel range span = [span] := by
  rw [relabel]
  refine if_pos (apart.symm.imp_left fun outside => Nat.not_lt.mp fun meets => ?_)
  -- An overlap would have its first byte in both.
  refine outside (max span.range.start range.start) ?_ ?_ <;> rw [ByteRange.mem_iff] <;> omega

/-- An empty or reversed range changes nothing. -/
theorem relabelAll_of_isEmpty (empty : range.isEmpty = true) (spans : List Span) :
    Span.relabelAll range spans = spans := by
  have reversed : range.stop ≤ range.start := of_decide_eq_true empty
  have each : ∀ span ∈ spans, relabel range span = [span] := fun span _ =>
    relabel_of_apart <| .inr fun offset _ inside => by
      rw [ByteRange.mem_iff] at inside
      omega
  rw [Span.relabelAll, List.flatMap_congr each, List.flatMap_singleton']

/-- Of what is cut at a range nothing is cut at it again. -/
theorem relabelAll_relabelAll (range : ByteRange) (spans : List Span) :
    Span.relabelAll range (Span.relabelAll range spans) = Span.relabelAll range spans := by
  have each : ∀ part ∈ Span.relabelAll range spans, relabel range part = [part] := by
    intro part member
    obtain ⟨source, -, among⟩ := List.mem_flatMap.mp member
    obtain ⟨-, -, -, kept⟩ := mem_relabel among
    exact relabel_of_apart (kept.imp_right And.right)
  conv_lhs => rw [Span.relabelAll, List.flatMap_congr each, List.flatMap_singleton']

/-! ### Many ranges -/

/-- Makes markup of everything in some ranges, one range after the other. -/
def relabelEach (ranges : List ByteRange) (spans : List Span) : List Span :=
  ranges.foldl (fun spans range => Span.relabelAll range spans) spans

theorem Tiles.relabelEach (tiles : Tiles start stop spans) (ranges : List ByteRange) :
    Tiles start stop (Span.relabelEach ranges spans) := by
  induction ranges generalizing spans with
  | nil => exact tiles
  | cons range ranges ih => exact ih (tiles.relabelAll range)

/-- In the end the bytes that are in one of the ranges are markup, and no others have changed. -/
theorem Tiles.kindAt?_relabelEach (tiles : Tiles start stop spans) (ranges : List ByteRange)
    (offset : Nat) :
    kindAt? (Span.relabelEach ranges spans) offset =
      (kindAt? spans offset).map fun kind =>
        (if ∃ range ∈ ranges, offset ∈ range then .markup else kind.1, kind.2) := by
  induction ranges generalizing spans with
  | nil => simp [Span.relabelEach]
  | cons range ranges ih =>
    have later := ih (tiles.relabelAll range)
    rw [tiles.kindAt?_relabelAll, Option.map_map] at later
    refine later.trans (congrArg (Option.map · _) (funext fun kind => ?_))
    by_cases here : offset ∈ range <;> simp [here]

/-- Making markup of a range of spans that follow each other changes the role of the bytes in the
range and nothing else: the spans still tile the same bytes, every byte of the range is markup,
every other byte has the role it had, and whether a byte divides prose stays. A range without a byte
changes nothing, and a range that has been taken once changes nothing more. Where several ranges are
taken, as is done with the markup that a comment leaves unfinished, a byte is markup in the end if
any of them has it, so their order decides for no byte. -/
theorem relabelling_is_bytewise (tiles : Tiles start stop spans) :
    (∀ span ∈ spans, ∀ offset ∈ span.range, kindAt? spans offset = some (span.role, span.divides)) ∧
    (∀ offset, (kindAt? spans offset).isSome ↔ start ≤ offset ∧ offset < stop) ∧
    (∀ range,
      Tiles start stop (Span.relabelAll range spans) ∧
      (∀ offset, kindAt? (Span.relabelAll range spans) offset =
        (kindAt? spans offset).map fun kind =>
          (if offset ∈ range then .markup else kind.1, kind.2)) ∧
      (range.isEmpty = true → Span.relabelAll range spans = spans) ∧
      Span.relabelAll range (Span.relabelAll range spans) = Span.relabelAll range spans) ∧
    (∀ ranges,
      Tiles start stop (Span.relabelEach ranges spans) ∧
      ∀ offset, kindAt? (Span.relabelEach ranges spans) offset =
        (kindAt? spans offset).map fun kind =>
          (if ∃ range ∈ ranges, offset ∈ range then .markup else kind.1, kind.2)) ∧
    (∀ ranges others : List ByteRange, ranges.Perm others → ∀ offset,
      kindAt? (Span.relabelEach ranges spans) offset =
        kindAt? (Span.relabelEach others spans) offset) ∧
    ∀ unfinished, Unfinished.relabel unfinished spans =
      Span.relabelEach (unfinished.map Unfinished.range) spans := by
  refine ⟨fun span member offset inside => ?_, fun offset => tiles.isSome_kindAt?_iff,
    fun range => ⟨tiles.relabelAll range, tiles.kindAt?_relabelAll range, fun empty => ?_, ?_⟩,
    fun ranges => ⟨tiles.relabelEach ranges, tiles.kindAt?_relabelEach ranges⟩,
    fun ranges others perm offset => ?_, fun unfinished => ?_⟩
  · exact tiles.kindAt?_eq_some_iff.mpr ⟨span, member, inside, rfl, rfl⟩
  · exact relabelAll_of_isEmpty empty spans
  · exact relabelAll_relabelAll range spans
  · rw [tiles.kindAt?_relabelEach, tiles.kindAt?_relabelEach]
    simp only [perm.mem_iff]
  · rw [Unfinished.relabel, relabelEach, List.foldl_map]

/-- Two ranges that overlap cut the spans at different places in the two orders, and leave the same
bytes. The byte that divides goes on to divide. -/
theorem relabelling_is_bytewise_overlap :
    let spans : List Span :=
      [⟨.prose, ⟨4, 8⟩, false⟩, ⟨.markup, ⟨8, 11⟩, true⟩, ⟨.argument, ⟨11, 14⟩, false⟩]
    Tiles 4 14 spans ∧
      Span.relabelEach [⟨6, 12⟩, ⟨5, 7⟩] spans ≠ Span.relabelEach [⟨5, 7⟩, ⟨6, 12⟩] spans ∧
      (∀ offset, kindAt? (Span.relabelEach [⟨6, 12⟩, ⟨5, 7⟩] spans) offset =
        kindAt? (Span.relabelEach [⟨5, 7⟩, ⟨6, 12⟩] spans) offset) ∧
      kindAt? (Span.relabelAll ⟨6, 12⟩ spans) 9 = some (.markup, true) ∧
      kindAt? (Span.relabelAll ⟨6, 12⟩ spans) 12 = some (.argument, false) ∧
      Span.relabelAll ⟨7, 5⟩ spans = spans := by
  intro spans
  have tiles : Tiles 4 14 spans := ⟨rfl, by decide, rfl, by decide, rfl, by decide, rfl⟩
  obtain ⟨-, -, once, -, anyOrder, -⟩ := relabelling_is_bytewise tiles
  obtain ⟨-, kinds, -, -⟩ := once ⟨6, 12⟩
  refine ⟨tiles, by decide, anyOrder _ _ (.swap _ _ _), ?_, ?_, ?_⟩
  · rw [kinds]
    rfl
  · rw [kinds]
    rfl
  · exact (once ⟨7, 5⟩).2.2.1 rfl

end Span

end CommentProse
