/-
Module: Crunchy.Lib.WordArrays
Purpose: Arrays of 32-bit words laid out in a flat 32-bit memory: the address of
  an element, and when the elements of one or of two arrays are different cells.
Trusted boundary: none
Main exports: cell, toNat_cell, cell_inj, cell_ne_of_apart
-/
import Mathlib.Data.BitVec

namespace Crunchy.Lib

/-- The address of word `i` of the array at `base`. -/
def cell (base i : BitVec 32) : BitVec 32 :=
  base + 4#32 * i

/-- Two arrays of `count` words do not overlap. -/
def Apart (count : Nat) (base other : BitVec 32) : Prop :=
  base.toNat + 4 * count ≤ other.toNat ∨ other.toNat + 4 * count ≤ base.toNat

theorem Apart.symm {count : Nat} {base other : BitVec 32} (apart : Apart count base other) :
    Apart count other base :=
  Or.symm apart

/-- Inside an array that does not wrap, addresses are plain sums. -/
theorem toNat_cell {count : Nat} {base i : BitVec 32}
    (fits : base.toNat + 4 * count ≤ 2 ^ 32) (inside : i.toNat < count) :
    (cell base i).toNat = base.toNat + 4 * i.toNat := by
  rw [cell, BitVec.toNat_add, BitVec.toNat_mul, BitVec.toNat_ofNat]
  omega

theorem cell_inj {count : Nat} {base i j : BitVec 32}
    (fits : base.toNat + 4 * count ≤ 2 ^ 32) (iInside : i.toNat < count)
    (jInside : j.toNat < count) (same : cell base i = cell base j) : i = j := by
  have value := congrArg BitVec.toNat same
  rw [toNat_cell fits iInside, toNat_cell fits jInside] at value
  exact BitVec.eq_of_toNat_eq (by omega)

theorem cell_ne_of_apart {count : Nat} {base other i j : BitVec 32}
    (fits : base.toNat + 4 * count ≤ 2 ^ 32) (otherFits : other.toNat + 4 * count ≤ 2 ^ 32)
    (apart : Apart count base other) (iInside : i.toNat < count)
    (jInside : j.toNat < count) : cell base i ≠ cell other j := by
  intro same
  have value := congrArg BitVec.toNat same
  rw [toNat_cell fits iInside, toNat_cell otherFits jInside] at value
  rcases apart with before | after
  · omega
  · omega

end Crunchy.Lib
