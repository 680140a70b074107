/-
Module: Crunchy.Lib.Masks
Purpose: Masking and shifting of machine words as division and remainder by
  powers of two, and sums that fit, the form in which address arithmetic is
  reasoned about.
Trusted boundary: none
Main exports: toNat_and_lowMask, toNat_and_not_lowMask, toNat_add_ofNat,
  toNat_ushiftRight_div, toNat_or_of_aligned
-/
import Mathlib.Data.BitVec
import Mathlib.Data.Nat.Bitwise

namespace Crunchy.Lib

open BitVec

variable {w : Nat}

/-- Masking with `k` low ones keeps the remainder modulo `2 ^ k`. -/
theorem toNat_and_lowMask (x : BitVec w) {k : Nat} (fits : k ≤ w) :
    (x &&& BitVec.ofNat w (2 ^ k - 1)).toNat = x.toNat % 2 ^ k := by
  have bound : 2 ^ k - 1 < 2 ^ w :=
    Nat.lt_of_lt_of_le (Nat.sub_lt (Nat.two_pow_pos k) Nat.one_pos)
      (Nat.pow_le_pow_right (by decide) fits)
  rw [toNat_and, toNat_ofNat, Nat.mod_eq_of_lt bound, Nat.and_two_pow_sub_one_eq_mod]

/-- Masking the `k` low bits away rounds down to a multiple of `2 ^ k`. -/
theorem toNat_and_not_lowMask (x : BitVec w) {k : Nat} (fits : k ≤ w) :
    (x &&& ~~~BitVec.ofNat w (2 ^ k - 1)).toNat = x.toNat / 2 ^ k * 2 ^ k := by
  apply Nat.eq_of_testBit_eq
  intro i
  rw [Nat.testBit_mul_two_pow, Nat.testBit_div_two_pow, testBit_toNat, getLsbD_and, getLsbD_not,
    getLsbD_ofNat, Nat.testBit_two_pow_sub_one, ← testBit_toNat]
  by_cases high : k ≤ i
  · by_cases inside : i < w
    · simp [high, inside, Nat.sub_add_cancel high, Nat.not_lt.mpr high]
    · have beyond : x.toNat.testBit i = false :=
        Nat.testBit_lt_two_pow
          (Nat.lt_of_lt_of_le x.isLt (Nat.pow_le_pow_right (by decide) (Nat.not_lt.mp inside)))
      simp [high, Nat.sub_add_cancel high, beyond]
  · have inside : i < w := by omega
    simp [high, inside, Nat.lt_of_not_le high]

/-- Adding a number to a word, where the sum fits. -/
theorem toNat_add_ofNat {x : BitVec w} {n : Nat} (fits : x.toNat + n < 2 ^ w) :
    (x + BitVec.ofNat w n).toNat = x.toNat + n := by
  rw [toNat_add, toNat_ofNat, Nat.add_mod_mod, Nat.mod_eq_of_lt fits]

/-- A logical right shift divides. -/
theorem toNat_ushiftRight_div (x : BitVec w) (k : Nat) :
    (x >>> k).toNat = x.toNat / 2 ^ k := by
  rw [toNat_ushiftRight, Nat.shiftRight_eq_div_pow]

/-- Or-ing flags into the clear low bits of an aligned word adds them. -/
theorem toNat_or_of_aligned {x f : BitVec w} {k : Nat} (aligned : x.toNat % 2 ^ k = 0)
    (low : f.toNat < 2 ^ k) : (x ||| f).toNat = x.toNat + f.toNat := by
  obtain ⟨q, hq⟩ := Nat.dvd_of_mod_eq_zero aligned
  rw [toNat_or, hq, Nat.two_pow_add_eq_or_of_lt low]

end Crunchy.Lib
