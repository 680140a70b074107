/-
Module: Crunchy.Lib.Bytes
Purpose: Memory as bytes by offset: little-endian numbers of any width in it, and
  what copying into it changes and leaves alone.
Trusted boundary: none
Main exports: Bytes, patch, number, digits, get32, put32, get32_put32, get32_patch_apart
-/
import Mathlib.Data.BitVec

namespace Crunchy.Lib

open BitVec

/-- The bytes of a piece of memory, by offset. -/
abbrev Bytes := Nat → BitVec 8

/-- With this a byte is looked up in a text. -/
instance lawfulByte : LawfulBEq (BitVec 8) := inferInstance

/-- Copy `count` bytes of `source` to offset `o`. -/
def patch (b : Bytes) (o count : Nat) (source : Bytes) : Bytes :=
  fun i => if o ≤ i ∧ i < o + count then source (i - o) else b i

/-- The number in `count` bytes from offset `o`, the lowest byte first. -/
def number (b : Bytes) (o : Nat) : Nat → Nat
  | 0 => 0
  | count + 1 => (b o).toNat + 256 * number b (o + 1) count

/-- The bytes of a number, the lowest first. -/
def digits (x : Nat) : Bytes :=
  fun i => BitVec.ofNat 8 (x / 256 ^ i)

variable {b source : Bytes} {o o' count count' i x : Nat}

theorem patch_inside (start : o ≤ i) (stop : i < o + count) :
    patch b o count source i = source (i - o) :=
  if_pos ⟨start, stop⟩

theorem patch_outside (outside : i < o ∨ o + count ≤ i) : patch b o count source i = b i :=
  if_neg (by omega)

theorem number_congr {b' : Bytes} (same : ∀ i, o ≤ i → i < o + count → b i = b' i) :
    number b o count = number b' o count := by
  induction count generalizing o with
  | zero => rfl
  | succ count ih =>
    rw [number, number, same o (Nat.le_refl o) (by omega),
      ih fun i start stop => same i (by omega) (by omega)]

/-- A number in the memory from offset `start` on. -/
theorem number_shift (b : Bytes) (start o count : Nat) :
    number (fun k => b (start + k)) o count = number b (start + o) count := by
  induction count generalizing o with
  | zero => rfl
  | succ count ih =>
    rw [number, number, ih (o + 1), Nat.add_assoc start o 1]

theorem number_lt (b : Bytes) (o count : Nat) : number b o count < 256 ^ count := by
  induction count generalizing o with
  | zero => exact Nat.one_pos
  | succ count ih =>
    have high := ih (o + 1)
    rw [number, Nat.pow_succ]
    omega

/-- A number that stands in memory digit by digit. -/
theorem number_of_digits (stored : ∀ i < count, b (o + i) = digits x i) :
    number b o count = x % 256 ^ count := by
  induction count generalizing o x with
  | zero => simp [number, Nat.mod_one]
  | succ count ih =>
    have rest : number b (o + 1) count = x / 256 % 256 ^ count := by
      apply ih
      intro i below
      have shifted := stored (i + 1) (by omega)
      rw [show o + (i + 1) = o + 1 + i by omega] at shifted
      rw [shifted, digits, digits, Nat.pow_succ', Nat.div_div_eq_div_mul]
    have first := stored 0 (Nat.succ_pos count)
    rw [Nat.add_zero] at first
    have low : (digits x 0).toNat = x % 256 := by
      rw [digits, toNat_ofNat, Nat.pow_zero, Nat.div_one]
    rw [number, rest, first, low, Nat.pow_succ', Nat.mod_mul]

theorem number_patch : number (patch b o count (digits x)) o count = x % 256 ^ count := by
  apply number_of_digits
  intro i below
  rw [patch_inside (Nat.le_add_right o i) (by omega), Nat.add_sub_cancel_left]

/-- Copying elsewhere leaves a number alone. -/
theorem number_patch_apart (apart : o + count ≤ o' ∨ o' + count' ≤ o) :
    number (patch b o' count' source) o count = number b o count := by
  apply number_congr
  intro i start stop
  exact patch_outside (by omega)

/-- The digits of a number are the bytes it was read from. -/
theorem digits_number (below : i < count) : digits (number b o count) i = b (o + i) := by
  induction count generalizing o i with
  | zero => cases below
  | succ count ih =>
    cases i with
    | zero =>
      rw [digits, number, Nat.pow_zero, Nat.div_one]
      apply eq_of_toNat_eq
      rw [toNat_ofNat]
      show _ = (b o).toNat
      omega
    | succ i =>
      have rest := ih (o := o + 1) (by omega : i < count)
      rw [show o + 1 + i = o + (i + 1) by omega] at rest
      rw [← rest, digits, digits, number, Nat.pow_succ', ← Nat.div_div_eq_div_mul]
      congr 2
      omega

/-- Copying a number back changes nothing. -/
theorem patch_number : patch b o count (digits (number b o count)) = b := by
  funext i
  by_cases inside : o ≤ i ∧ i < o + count
  · rw [patch_inside inside.1 inside.2, digits_number (by omega), Nat.add_sub_cancel' inside.1]
  · exact if_neg inside

/-! ### Words and half words -/

/-- The 32-bit word at offset `o`. -/
def get32 (b : Bytes) (o : Nat) : BitVec 32 := BitVec.ofNat 32 (number b o 4)

/-- Store a 32-bit word at offset `o`. -/
def put32 (b : Bytes) (o : Nat) (w : BitVec 32) : Bytes := patch b o 4 (digits w.toNat)

/-- The 16-bit word at offset `o`. -/
def get16 (b : Bytes) (o : Nat) : BitVec 16 := BitVec.ofNat 16 (number b o 2)

/-- Store a 16-bit word at offset `o`. -/
def put16 (b : Bytes) (o : Nat) (w : BitVec 16) : Bytes := patch b o 2 (digits w.toNat)

/-- Store a byte at offset `o`. -/
def put8 (b : Bytes) (o : Nat) (w : BitVec 8) : Bytes := patch b o 1 fun _ => w

@[simp] theorem get32_put32 (b : Bytes) (o : Nat) (w : BitVec 32) : get32 (put32 b o w) o = w := by
  rw [get32, put32, number_patch]
  apply eq_of_toNat_eq
  rw [toNat_ofNat]
  omega

@[simp] theorem get16_put16 (b : Bytes) (o : Nat) (w : BitVec 16) : get16 (put16 b o w) o = w := by
  rw [get16, put16, number_patch]
  apply eq_of_toNat_eq
  rw [toNat_ofNat]
  omega

/-- The lower byte of a half word. -/
theorem put16_low (b : Bytes) (o : Nat) (w : BitVec 16) : put16 b o w o = w.setWidth 8 := by
  rw [put16, patch_inside (Nat.le_refl o) (by omega), Nat.sub_self, digits, Nat.pow_zero,
    Nat.div_one, ofNat_toNat]

/-- The two bytes of a half word. -/
theorem put16_eq_put8 (b : Bytes) (o : Nat) (w : BitVec 16) :
    put16 b o w = put8 (put8 b o (w.setWidth 8)) (o + 1) ((w >>> 8).setWidth 8) := by
  funext k
  by_cases low : k = o
  · rw [low, put16_low, put8, patch_outside (by omega), put8, patch_inside (by omega) (by omega)]
  · by_cases high : k = o + 1
    · rw [high, put16, patch_inside (by omega) (by omega), put8, patch_inside (by omega) (by omega)]
      apply eq_of_toNat_eq
      rw [Nat.add_sub_cancel_left, digits, toNat_ofNat, toNat_setWidth,
        toNat_ushiftRight, Nat.shiftRight_eq_div_pow]
      rfl
    · rw [put16, patch_outside (by omega), put8, patch_outside (by omega), put8,
        patch_outside (by omega)]

theorem get32_patch_apart (apart : o + 4 ≤ o' ∨ o' + count' ≤ o) :
    get32 (patch b o' count' source) o = get32 b o := by
  rw [get32, number_patch_apart apart, get32]

theorem get16_patch_apart (apart : o + 2 ≤ o' ∨ o' + count' ≤ o) :
    get16 (patch b o' count' source) o = get16 b o := by
  rw [get16, number_patch_apart apart, get16]

theorem get32_put32_apart {w : BitVec 32} (apart : o + 4 ≤ o' ∨ o' + 4 ≤ o) :
    get32 (put32 b o' w) o = get32 b o :=
  get32_patch_apart apart

theorem get32_congr {b' : Bytes} (same : ∀ i, o ≤ i → i < o + 4 → b i = b' i) :
    get32 b o = get32 b' o := by
  rw [get32, number_congr same, get32]

theorem get32_shift (b : Bytes) (start o : Nat) :
    get32 (fun k => b (start + k)) o = get32 b (start + o) := by
  rw [get32, number_shift, get32]

theorem get16_shift (b : Bytes) (start o : Nat) :
    get16 (fun k => b (start + k)) o = get16 b (start + o) := by
  rw [get16, get16, number_shift]

theorem get16_congr {b' : Bytes} (same : ∀ i, o ≤ i → i < o + 2 → b i = b' i) :
    get16 b o = get16 b' o := by
  rw [get16, number_congr same, get16]

/-- Storing the word that stands there changes nothing. -/
theorem put32_get32 (b : Bytes) (o : Nat) : put32 b o (get32 b o) = b := by
  have bound := number_lt b o 4
  rw [put32, get32, toNat_ofNat, Nat.mod_eq_of_lt (by omega), patch_number]

end Crunchy.Lib
