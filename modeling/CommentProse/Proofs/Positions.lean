import CommentProse.Proofs.Checked.Results
import Mathlib.Data.List.DropRight
import Mathlib.Data.Prod.Lex
import Mathlib.Algebra.Order.SuccPred
import Mathlib.Data.Nat.SuccPred

/-! # Positions count line feeds

A line table keeps where lines begin, and an offset is looked up in it. The same line and column
come out when the bytes before the offset are counted: the line feeds among them, and the bytes
behind the last one (`LineTable.positions_count_line_feeds`). One byte further both go on alike, to
the next line behind a line feed and to the next column behind any other byte. So positions grow
with the offset, and no two offsets of a text share one.

In UTF-8 a line feed is the byte 10, and no other character has this byte.
-/

namespace CommentProse

/-! ### Bytes -/

/-- The bytes of a text in UTF-8. -/
def bytesOf (text : List Char) : List UInt8 := text.flatMap String.utf8EncodeChar

theorem bytesOf_cons (c : Char) (text : List Char) :
    bytesOf (c :: text) = String.utf8EncodeChar c ++ bytesOf text := rfl

theorem length_bytesOf (text : List Char) : (bytesOf text).length = width text := by
  induction text with
  | nil => rfl
  | cons c text ih =>
    rw [bytesOf_cons, List.length_append, ih, String.length_utf8EncodeChar, width_cons]

/-- All bytes of a character beyond ASCII have their highest bit set. -/
private theorem le_toNat_of_mem_utf8EncodeChar {c : Char} (beyond : ¬c.val.toNat ≤ 127)
    {byte : UInt8} (member : byte ∈ String.utf8EncodeChar c) : 128 ≤ byte.toNat := by
  have high {code : Nat} (high : 128 ≤ code) (small : code < 256) :
      128 ≤ (UInt8.ofNat code).toNat := by
    rwa [UInt8.toNat_ofNat_of_lt' small]
  simp only [String.utf8EncodeChar, if_neg beyond] at member
  split at member
  · simp only [List.mem_cons, List.not_mem_nil, or_false] at member
    rcases member with rfl | rfl <;> exact high (by omega) (by omega)
  · split at member
    · simp only [List.mem_cons, List.not_mem_nil, or_false] at member
      rcases member with rfl | rfl | rfl <;> exact high (by omega) (by omega)
    · simp only [List.mem_cons, List.not_mem_nil, or_false] at member
      rcases member with rfl | rfl | rfl | rfl <;> exact high (by omega) (by omega)

/-- The byte of a line feed belongs to no other character. -/
theorem lineFeed_notMem_utf8EncodeChar {c : Char} (other : c ≠ '\n') :
    (10 : UInt8) ∉ String.utf8EncodeChar c := by
  intro member
  by_cases ascii : c.val.toNat ≤ 127
  · simp only [String.utf8EncodeChar, if_pos ascii] at member
    have code := congrArg UInt8.toNat (List.mem_singleton.mp member)
    rw [UInt8.toNat_ofNat_of_lt' (Nat.lt_of_le_of_lt ascii (by decide))] at code
    exact other (Char.ext (UInt32.toNat_inj.mp code.symm))
  · exact absurd (le_toNat_of_mem_utf8EncodeChar ascii member) (by decide)

theorem getElem?_bytesOf_cons (c : Char) (text : List Char) (index : Nat) :
    (bytesOf (c :: text))[c.utf8Size + index]? = (bytesOf text)[index]? := by
  rw [bytesOf_cons, ← String.length_utf8EncodeChar,
    List.getElem?_append_right (Nat.le_add_right _ _), Nat.add_sub_cancel_left]

/-- A character that has the byte of a line feed is one. -/
theorem eq_lineFeed_of_getElem? {c : Char} {text : List Char} {index : Nat}
    (inside : index < c.utf8Size) (feed : (bytesOf (c :: text))[index]? = some 10) : c = '\n' := by
  rw [bytesOf_cons,
    List.getElem?_append_left (by rwa [String.length_utf8EncodeChar])] at feed
  by_contra other
  exact lineFeed_notMem_utf8EncodeChar other (List.mem_of_getElem? feed)

/-! ### Where lines begin -/

namespace LineTable

/-- A line begins behind each line feed. -/
theorem mem_startsAfter_iff {offset start : Nat} {text : List Char} :
    start ∈ startsAfter offset text ↔
      ∃ index, (bytesOf text)[index]? = some 10 ∧ start = offset + index + 1 := by
  induction text generalizing offset with
  | nil => simp [startsAfter, bytesOf]
  | cons c text ih =>
    constructor
    · intro member
      have later (behind : start ∈ startsAfter (offset + c.utf8Size) text) :
          ∃ index, (bytesOf (c :: text))[index]? = some 10 ∧ start = offset + index + 1 := by
        obtain ⟨index, feed, rfl⟩ := ih.mp behind
        exact ⟨c.utf8Size + index, by rw [getElem?_bytesOf_cons, feed], by omega⟩
      rw [startsAfter] at member
      split at member
      · next line =>
        subst line
        rcases List.mem_cons.mp member with rfl | behind
        · exact ⟨0, rfl, rfl⟩
        · exact later behind
      · exact later member
    · rintro ⟨index, feed, rfl⟩
      by_cases inside : index < c.utf8Size
      · obtain rfl := eq_lineFeed_of_getElem? inside feed
        obtain rfl : index = 0 := Nat.lt_one_iff.mp inside
        exact List.mem_cons_self
      · obtain ⟨behind, rfl⟩ := Nat.exists_eq_add_of_le (Nat.not_lt.mp inside)
        rw [getElem?_bytesOf_cons] at feed
        have later : offset + (c.utf8Size + behind) + 1 ∈ startsAfter (offset + c.utf8Size) text :=
          ih.mpr ⟨behind, feed, by omega⟩
        rw [startsAfter]
        split
        · exact List.mem_cons_of_mem _ later
        · exact later

theorem pairwise_startsAfter (offset : Nat) (text : List Char) :
    (startsAfter offset text).Pairwise (· < ·) := by
  induction text generalizing offset with
  | nil => exact .nil
  | cons c text ih =>
    rw [startsAfter]
    split
    · refine List.pairwise_cons.mpr ⟨fun start member => ?_, ih _⟩
      obtain ⟨index, -, rfl⟩ := mem_startsAfter_iff.mp member
      omega
    · exact ih _

theorem mem_starts_iff {start : Nat} {text : List Char} :
    start ∈ (ofText text).starts ↔
      start = 0 ∨ ∃ index, (bytesOf text)[index]? = some 10 ∧ start = index + 1 := by
  rw [ofText, List.mem_cons, mem_startsAfter_iff]
  simp only [Nat.zero_add]

/-- The lines of a table are in order, so that a bisection can find one. -/
theorem pairwise_starts (text : List Char) : (ofText text).starts.Pairwise (· < ·) := by
  refine List.pairwise_cons.mpr ⟨fun start member => ?_, pairwise_startsAfter 0 text⟩
  obtain ⟨index, -, rfl⟩ := mem_startsAfter_iff.mp member
  exact Nat.succ_pos _

end LineTable

/-! ### Sorted numbers -/

private theorem takeWhile_of_beyond {numbers : List Nat} {bound : Nat}
    (beyond : ∀ number ∈ numbers, bound < number) : numbers.takeWhile (· ≤ bound) = [] := by
  cases numbers with
  | nil => rfl
  | cons number numbers =>
    have first := beyond number List.mem_cons_self
    exact List.takeWhile_cons_of_neg (by simpa using first)

/-- The numbers before the index are at most the bound, and those from it on are beyond. -/
structure PartsAt (numbers : List Nat) (bound index : Nat) : Prop where
  within : index ≤ numbers.length
  before : ∀ number ∈ numbers.take index, number ≤ bound
  behind : ∀ number ∈ numbers.drop index, bound < number

/-- Sorted numbers part at one index. -/
theorem partsAt_iff {numbers : List Nat} (sorted : numbers.Pairwise (· < ·)) (bound index : Nat) :
    PartsAt numbers bound index ↔ index = (numbers.takeWhile (· ≤ bound)).length := by
  constructor
  · intro parts
    rw [← List.take_append_drop index numbers, List.takeWhile_append_of_pos
      fun number member => decide_eq_true (parts.before number member),
      takeWhile_of_beyond parts.behind, List.append_nil, List.length_take,
      Nat.min_eq_left parts.within]
  · rintro rfl
    induction numbers with
    | nil => exact ⟨Nat.le_refl _, by simp, by simp⟩
    | cons number numbers ih =>
      obtain ⟨later, sorted⟩ := List.pairwise_cons.mp sorted
      by_cases here : number ≤ bound
      · obtain ⟨within, before, behind⟩ := ih sorted
        rw [List.takeWhile_cons_of_pos (by simpa using here), List.length_cons]
        exact ⟨Nat.succ_le_succ within, List.forall_mem_cons.mpr ⟨here, before⟩, behind⟩
      · rw [List.takeWhile_cons_of_neg (by simpa using here)]
        refine ⟨Nat.zero_le _, by simp, List.forall_mem_cons.mpr ⟨Nat.not_le.mp here, ?_⟩⟩
        intro other member
        exact Nat.lt_trans (Nat.not_le.mp here) (later other member)

/-- With a larger bound by one, one more of sorted numbers may be reached. -/
theorem takeWhile_le_succ {numbers : List Nat} (sorted : numbers.Pairwise (· < ·)) (bound : Nat) :
    numbers.takeWhile (· ≤ bound + 1) =
      numbers.takeWhile (· ≤ bound) ++ if bound + 1 ∈ numbers then [bound + 1] else [] := by
  induction numbers with
  | nil => rfl
  | cons number numbers ih =>
    obtain ⟨later, sorted⟩ := List.pairwise_cons.mp sorted
    rcases Nat.lt_trichotomy number (bound + 1) with earlier | rfl | beyond
    · rw [List.takeWhile_cons_of_pos (by simpa using Nat.le_of_lt earlier),
        List.takeWhile_cons_of_pos (by simpa using Nat.le_of_lt_succ earlier), ih sorted]
      simp [Nat.ne_of_gt earlier]
    · simp [takeWhile_of_beyond later]
    · have missing : bound + 1 ∉ number :: numbers := by
        intro member
        rcases List.mem_cons.mp member with same | member
        · omega
        · have := later _ member
          omega
      rw [List.takeWhile_cons_of_neg (by simpa using beyond),
        List.takeWhile_cons_of_neg (by simp only [decide_eq_true_eq]; omega), if_neg missing]
      rfl

/-! ### One byte further -/

namespace Position

/-- The place behind one more byte. -/
def next (position : Position) (byte : UInt8) : Position :=
  if byte = 10 then ⟨position.line + 1, 1⟩ else ⟨position.line, position.column + 1⟩

/-- The place behind these bytes: the line counts line feeds, the column the bytes behind the last
of them. -/
def behind (bytes : List UInt8) : Position :=
  ⟨1 + bytes.count 10, 1 + (bytes.rtakeWhile (· != 10)).length⟩

theorem behind_concat (bytes : List UInt8) (byte : UInt8) :
    behind (bytes ++ [byte]) = (behind bytes).next byte := by
  rw [behind, next]
  split
  · next feed =>
    subst feed
    rw [List.rtakeWhile_concat_neg _ _ _ (by decide), List.count_append]
    rfl
  · next other =>
    rw [List.rtakeWhile_concat_pos _ _ _ (by simpa using other), List.count_append,
      List.count_singleton, if_neg (by simpa using other), List.length_append]
    rfl

/-- Positions in the order of lines, and in a line in the order of columns. -/
def key (position : Position) : Nat ×ₗ Nat := toLex (position.line, position.column)

theorem key_lt_next (position : Position) (byte : UInt8) :
    position.key < (position.next byte).key := by
  rw [key, key, Prod.Lex.toLex_lt_toLex, next]
  split
  · exact .inl (Nat.lt_succ_self _)
  · exact .inr ⟨rfl, Nat.lt_succ_self _⟩

end Position

namespace LineTable

theorem position_min (text : List Char) (offset : Nat) :
    (ofText text).position (min offset (width text)) = (ofText text).position offset := by
  have size : (ofText text).size = width text := rfl
  simp only [position, size, Nat.min_assoc, Nat.min_self]

/-- The lines that begin at or before an offset say where it is. -/
theorem position_eq {text : List Char} {place : Nat} (within : place ≤ width text) :
    (ofText text).position place =
      ⟨((ofText text).starts.takeWhile (· ≤ place)).length,
        place - ((ofText text).starts.takeWhile (· ≤ place)).getLastD 0 + 1⟩ := by
  have size : (ofText text).size = width text := rfl
  simp only [position, size, Nat.min_eq_left within]

theorem position_zero (text : List Char) : (ofText text).position 0 = ⟨1, 1⟩ := by
  have beyond := (List.pairwise_cons.mp (pairwise_starts text)).1
  have reached : (ofText text).starts.takeWhile (· ≤ 0) = [0] := by
    rw [ofText, List.takeWhile_cons_of_pos (by decide), takeWhile_of_beyond beyond]
  rw [position_eq (Nat.zero_le _), reached]
  rfl

/-- Behind a line feed a line begins; behind any other byte the line goes on. -/
theorem position_succ {text : List Char} {place : Nat} {byte : UInt8}
    (here : (bytesOf text)[place]? = some byte) :
    (ofText text).position (place + 1) = ((ofText text).position place).next byte := by
  have within : place < width text := by
    rw [← length_bytesOf]
    exact (List.getElem?_eq_some_iff.mp here).1
  have begins : place + 1 ∈ (ofText text).starts ↔ byte = 10 := by
    rw [mem_starts_iff]
    constructor
    · rintro (zero | ⟨index, feed, place_eq⟩)
      · cases zero
      · obtain rfl : place = index := Nat.succ.inj place_eq
        exact Option.some.inj (here.symm.trans feed)
    · rintro rfl
      exact .inr ⟨place, here, rfl⟩
  have lastReached : ((ofText text).starts.takeWhile (· ≤ place)).getLastD 0 ≤ place := by
    rw [List.getLastD_eq_getLast?]
    cases last : ((ofText text).starts.takeWhile (· ≤ place)).getLast? with
    | none => exact Nat.zero_le _
    | some start =>
      have among := List.mem_of_getLast? last
      exact of_decide_eq_true (List.mem_takeWhile_imp (p := (· ≤ place)) among)
  rw [position_eq within, position_eq (Nat.le_of_lt within),
    takeWhile_le_succ (pairwise_starts text), Position.next]
  simp only [begins]
  split
  · rw [List.length_append, List.getLastD_concat, Nat.sub_self]
    rfl
  · rw [List.append_nil, Nat.succ_sub lastReached]

/-- Up to the end of the text a position is what counting gives. -/
theorem position_eq_behind {text : List Char} {place : Nat} (within : place ≤ width text) :
    (ofText text).position place = .behind ((bytesOf text).take place) := by
  induction place with
  | zero => rw [position_zero, List.take_zero]; rfl
  | succ place ih =>
    have inside : place < (bytesOf text).length := by rwa [length_bytesOf]
    have here := List.getElem?_eq_getElem inside
    rw [position_succ here, ih (Nat.le_of_lt within), ← Position.behind_concat,
      List.take_add_one, here]
    rfl

theorem strictMonoOn_position (text : List Char) :
    StrictMonoOn (fun offset => ((ofText text).position offset).key) (Set.Iic (width text)) := by
  refine strictMonoOn_of_lt_add_one Set.ordConnected_Iic fun place _ _ within => ?_
  have inside : place < (bytesOf text).length := by
    rw [length_bytesOf]
    exact within
  rw [position_succ (List.getElem?_eq_getElem inside)]
  exact Position.key_lt_next _ _

/-- The position of an offset, clamped to the text, counts the line feeds before it and the bytes
behind the last of them. Every lookup by bisection finds its line: this is the only index at which
the beginnings of lines part. Within the text positions grow strictly, so each belongs to one
offset. -/
theorem positions_count_line_feeds (text : List Char) :
    (∀ offset,
      (ofText text).position offset = .behind ((bytesOf text).take (min offset (width text))) ∧
      Checked.position? (ofText text) offset = some ((ofText text).position offset) ∧
      ∀ index, PartsAt (ofText text).starts (min offset (width text)) index ↔
        index = ((ofText text).position offset).line) ∧
    StrictMonoOn (fun offset => ((ofText text).position offset).key) (Set.Iic (width text)) ∧
    Set.InjOn (ofText text).position (Set.Iic (width text)) := by
  refine ⟨fun offset => ⟨?_, Checked.position?_eq rfl offset, fun index => ?_⟩,
    strictMonoOn_position text, ?_⟩
  · rw [← position_min]
    exact position_eq_behind (Nat.min_le_right _ _)
  · exact partsAt_iff (pairwise_starts text) _ _
  · intro place inText other otherInText same
    exact (strictMonoOn_position text).injOn inText otherInText (congrArg Position.key same)

end LineTable

end CommentProse
