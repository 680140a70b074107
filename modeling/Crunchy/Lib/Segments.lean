/-
Module: Crunchy.Lib.Segments
Purpose: Segments laid end to end, given by the list of their lengths: where each
  one starts, that they do not overlap, and which one covers a position.
Trusted boundary: none
Main exports: Covers, exists_covers, Covers.unique, covers_offset
-/
import Mathlib.Algebra.GroupWithZero.Nat
import Mathlib.Algebra.Order.BigOperators.Group.List

namespace Crunchy.Lib

open List

/-- Where segment `i` starts: the lengths of the segments before it, added up. -/
def offset (lengths : List Nat) (i : Nat) : Nat :=
  (lengths.take i).sum

/-- Segment `i` covers the position `x`. -/
def Covers (lengths : List Nat) (i x : Nat) : Prop :=
  ∃ inside : i < lengths.length, offset lengths i ≤ x ∧ x < offset lengths i + lengths[i]

variable {lengths : List Nat} {i j x : Nat}

@[simp] theorem offset_zero (lengths : List Nat) : offset lengths 0 = 0 := by
  simp [offset]

theorem offset_length (lengths : List Nat) : offset lengths lengths.length = lengths.sum := by
  simp [offset]

theorem offset_cons_succ (first : Nat) (lengths : List Nat) (i : Nat) :
    offset (first :: lengths) (i + 1) = first + offset lengths i := by
  simp [offset]

theorem offset_succ (inside : i < lengths.length) :
    offset lengths (i + 1) = offset lengths i + lengths[i] := by
  rw [offset, take_add_one, sum_append, offset]
  simp [inside]

theorem offset_mono (ordered : i ≤ j) : offset lengths i ≤ offset lengths j := by
  have split := take_append_drop i (lengths.take j)
  rw [take_take, Nat.min_eq_left ordered] at split
  calc offset lengths i ≤ offset lengths i + ((lengths.take j).drop i).sum :=
        Nat.le_add_right _ _
    _ = offset lengths j := by
        rw [offset, ← sum_append, split, offset]

/-- A segment ends before any later one starts. -/
theorem end_le_offset (inside : i < lengths.length) (before : i < j) :
    offset lengths i + lengths[i] ≤ offset lengths j := by
  rw [← offset_succ inside]
  exact offset_mono before

theorem end_le_sum (inside : i < lengths.length) :
    offset lengths i + lengths[i] ≤ lengths.sum := by
  rw [← offset_length lengths]
  exact end_le_offset inside inside

/-- Laying another segment at the end moves none. -/
theorem offset_append (inside : i ≤ lengths.length) (more : List Nat) :
    offset (lengths ++ more) i = offset lengths i := by
  rw [offset, take_append_of_le_length inside, offset]

/-- The first segment covers the positions below its length. -/
theorem Covers.lt_first {first : Nat} (covers : Covers (first :: lengths) 0 x) : x < first := by
  obtain ⟨_, _, stop⟩ := covers
  simpa using stop

/-- A later segment covers what it covers among the rest, further along. -/
theorem Covers.in_rest {first : Nat} (covers : Covers (first :: lengths) (i + 1) x) :
    first ≤ x ∧ Covers lengths i (x - first) := by
  obtain ⟨inside, start, stop⟩ := covers
  rw [offset_cons_succ] at start stop
  rw [getElem_cons_succ] at stop
  exact ⟨by omega, by simpa using inside, by omega, by omega⟩

/-- Every position before the end is covered. -/
theorem exists_covers (before : x < lengths.sum) : ∃ i, Covers lengths i x := by
  induction lengths generalizing x with
  | nil => exact absurd before (Nat.not_lt_zero x)
  | cons first lengths ih =>
    rw [sum_cons] at before
    by_cases inFirst : x < first
    · exact ⟨0, Nat.succ_pos _, Nat.zero_le x, by simpa using inFirst⟩
    · obtain ⟨i, inside, start, stop⟩ := ih (x := x - first) (by omega)
      refine ⟨i + 1, Nat.succ_lt_succ inside, ?_, ?_⟩
      · rw [offset_cons_succ]
        omega
      · rw [offset_cons_succ, getElem_cons_succ]
        omega

/-- At most one segment covers a position. -/
theorem Covers.unique (one : Covers lengths i x) (two : Covers lengths j x) : i = j := by
  obtain ⟨iInside, iStart, iEnd⟩ := one
  obtain ⟨jInside, jStart, jEnd⟩ := two
  rcases Nat.lt_trichotomy i j with before | same | after
  · have apart := end_le_offset iInside before
    omega
  · exact same
  · have apart := end_le_offset jInside after
    omega

/-- A segment that is not empty covers its own start. -/
theorem covers_offset (inside : i < lengths.length) (positive : 0 < lengths[i]) :
    Covers lengths i (offset lengths i) :=
  ⟨inside, Nat.le_refl _, Nat.lt_add_of_pos_right positive⟩

end Crunchy.Lib
