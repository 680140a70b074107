/-
Module: Crunchy.Proofs.Numerals
Purpose: The numerals that `itoa`, `sitoa`, `ltoa` and `ctoa` leave in a buffer, as
  texts: digits written backwards and turned round by `strrev`.
Trusted boundary: none
Main exports: turned, strrev_written, itoaText, itoa_eq, sitoaText, toaText
-/
import Crunchy.Stdlib
import Crunchy.Lib.TextBytes

namespace Crunchy

open Lib List Option

variable {minus : Bool} {b : Bytes} {u : List (BitVec 8)}
  {base bits buffer count i k left len s : Nat} {num : U32}

/-! ### Turning a string round -/

/-- Where the loop of `strrev` has been, the character at `j` is the one at the mirrored
place. -/
theorem strrevLoop_inside {j : Nat} (half : 2 * (i + left) ≤ len + 1) (inside : j < len) :
    strrevLoop s len left i b (s + j) =
      if (i ≤ j ∧ j < i + left) ∨ (i + j < len ∧ len ≤ i + left + j) then b (s + (len - 1 - j))
      else b (s + j) := by
  induction left generalizing i b with
  | zero =>
    rw [strrevLoop, if_neg (by omega)]
  | succ left ih =>
    rw [strrevLoop, ih (by omega)]
    have mirror : s + len - 1 - i = s + (len - 1 - i) := by omega
    rw [mirror]
    have swapped : ∀ k < len, put8 (put8 b (s + i) (b (s + (len - 1 - i)))) (s + (len - 1 - i))
        (b (s + i)) (s + k) =
        if k = i ∨ k = len - 1 - i then b (s + (len - 1 - k)) else b (s + k) := by
      intro k below
      by_cases far : k = len - 1 - i
      · subst far
        rw [put8, patch_inside (by omega) (by omega), if_pos (Or.inr rfl)]
        congr 1
        omega
      · rw [put8, patch_outside (by omega)]
        by_cases near : k = i
        · subst near
          rw [put8, patch_inside (by omega) (by omega), if_pos (Or.inl rfl)]
        · rw [put8, patch_outside (by omega), if_neg (by omega)]
    rw [swapped j inside, swapped (len - 1 - j) (by omega)]
    split
    · rw [if_neg (by omega), if_pos (by omega)]
    · split
      · rw [if_pos (by omega)]
      · rw [if_neg (by omega)]

theorem strrevLoop_outside (half : 2 * (i + left) ≤ len + 1) (outside : k < s ∨ s + len ≤ k) :
    strrevLoop s len left i b k = b k := by
  induction left generalizing i b with
  | zero => rfl
  | succ left ih =>
    rw [strrevLoop, ih (by omega), put8, patch_outside (by omega), put8,
      patch_outside (by omega)]

theorem strrevRounds_eq (positive : 1 ≤ len) (short : len ≤ 2 ^ 31) :
    strrevRounds len = (len - 1) / 2 + 1 := by
  have value : (BitVec.ofNat 32 len - 1#32).toNat = len - 1 := by
    rw [BitVec.toNat_sub, BitVec.toNat_ofNat, BitVec.toNat_ofNat]
    omega
  rw [strrevRounds, toInt_of_small (by omega), value, Int.tdiv_eq_ediv_of_nonneg (by omega)]
  omega

theorem strrevRounds_long (long : 2 ^ 31 < len) (fits : len < 2 ^ 32) : strrevRounds len = 0 := by
  have value : (BitVec.ofNat 32 len - 1#32).toNat = len - 1 := by
    rw [BitVec.toNat_sub, BitVec.toNat_ofNat, BitVec.toNat_ofNat]
    omega
  have negative : (BitVec.ofNat 32 len - 1#32).toInt = -((2 ^ 32 + 1 - len : Nat) : Int) := by
    rw [BitVec.toInt_eq_toNat_cond, value, if_neg (by omega)]
    omega
  rw [strrevRounds, negative, Int.neg_tdiv, Int.tdiv_eq_ediv_of_nonneg (by omega)]
  omega

/-- A string that is not empty is turned round and nothing else changes. -/
theorem strrev_eq {t : List (BitVec 8)} (string : CString (fun i => b (s + i)) t)
    (short : t.length ≤ 2 ^ 31) (nonempty : t ≠ []) :
    strrev b s = some (writeText b s t.reverse) := by
  have positive := length_pos_iff.mpr nonempty
  rw [strrev, string.strlen_eq (by omega), map_some, Option.some.injEq,
    strrevRounds_eq positive short]
  funext k
  by_cases inside : s ≤ k ∧ k < s + t.length
  · obtain ⟨j, rfl⟩ : ∃ j, k = s + j := ⟨k - s, by omega⟩
    have below : j < t.length := by omega
    have mirrored := string.chars (t.length - 1 - j) (by omega)
    rw [strrevLoop_inside (by omega) below, if_pos (by omega),
      writeText_inside (by simpa using below), getD_eq_getElem _ _ (by simpa using below),
      getElem_reverse]
    exact mirrored
  · rw [strrevLoop_outside (by omega) (by omega), writeText_outside (by simp; omega)]

/-- The empty string is swapped with the byte before it. -/
theorem strrev_empty (string : CString (fun i => b (s + i)) []) :
    strrev b s = some (put8 (put8 b s (b (s - 1))) (s - 1) 0#8) := by
  have here : b s = 0#8 := string.terminated
  rw [strrev, string.strlen_eq (by decide), map_some]
  show some (put8 (put8 b s (b (s - 1))) (s - 1) (b s)) = _
  rw [here]

/-- A text that was written, with its `NUL`. -/
theorem cstring_writeText {t : List (BitVec 8)} (noNul : 0#8 ∉ t) :
    CString (fun i => put8 (writeText b s t) (s + t.length) 0#8 (s + i)) t := by
  refine ⟨fun j inside => ?_, patch_inside (by omega) (by omega), noNul⟩
  show put8 (writeText b s t) (s + t.length) 0#8 (s + j) = _
  rw [put8, patch_outside (by omega), writeText_inside inside, getD_eq_getElem]

/-- What the functions leave of the characters `u`, written backwards, from `s` on: the text
`u` and a `NUL`; for the empty text `strrev` swaps the `NUL` with the byte in front. -/
def turned (b : Bytes) (s : Nat) (u : List (BitVec 8)) : Bytes :=
  if u = [] then put8 (put8 b s (b (s - 1))) (s - 1) 0#8
  else put8 (writeText b s u) (s + u.length) 0#8

theorem strrev_written (front : u = [] → 1 ≤ s) (noNul : 0#8 ∉ u) (short : u.length ≤ 2 ^ 31) :
    strrev (put8 (writeText b s u) (s + u.length) 0#8) s = some (turned b s u.reverse) := by
  have string := cstring_writeText (b := b) (s := s) noNul
  by_cases empty : u = []
  · subst empty
    have before : put8 b s 0#8 (s - 1) = b (s - 1) := by
      have := front rfl
      exact patch_outside (by omega)
    have again : put8 (put8 b s 0#8) s (b (s - 1)) = put8 b s (b (s - 1)) := by
      rw [put8_eq_writeText b, put8_eq_writeText, put8_eq_writeText b]
      exact writeText_front b s [] (t := [0#8]) (u := [b (s - 1)]) rfl
    rw [strrev_empty string, turned, if_pos reverse_nil, writeText_nil]
    show some (put8 (put8 (put8 b s 0#8) s (put8 b s 0#8 (s - 1))) (s - 1) 0#8) = _
    rw [before, again]
  · have length : u.reverse.length = u.length := length_reverse
    rw [strrev_eq string short empty, turned, if_neg (by simpa using empty), put8_eq_writeText,
      put8_eq_writeText, writeText_append, writeText_front b s [0#8] length.symm, writeText_append]

/-- Behind the `NUL` the memory stays as it is. -/
theorem turned_behind (behind : s + u.length < k) :
    turned b s u k = b k := by
  rw [turned]
  split
  · rw [put8, patch_outside (by omega), put8, patch_outside (by omega)]
  · rw [put8, patch_outside (by omega), writeText_outside (by omega)]

/-! ### Digits -/

/-- The remainders that are written have characters other than the `NUL`. -/
theorem digitChar_ne_zero {remainder : Int} (low : -9 ≤ remainder) (high : remainder < 36) :
    digitChar remainder ≠ 0#8 := by
  intro zero
  have value := congrArg BitVec.toNat zero
  rw [digitChar, BitVec.toNat_ofInt, BitVec.toNat_ofNat] at value
  split at value <;> omega

/-- The digits that `itoa` writes for `num`, the lowest first, at most `len` of them. -/
def digitList (base : Nat) : (len num : Nat) → List (BitVec 8)
  | _, 0 => []
  | 0, _ + 1 => []
  | len + 1, num + 1 =>
    digitChar ((num + 1) % base : Nat) :: digitList base len ((num + 1) / base)

/-- What is left of `len` behind them, `none` for the -1. -/
def digitsLeft (base : Nat) : (len num : Nat) → Option Nat
  | len, 0 => some len
  | 0, _ + 1 => none
  | len + 1, num + 1 => digitsLeft base len ((num + 1) / base)

theorem itoaLoop_eq (buffer base len num i : Nat) (b : Bytes) :
    itoaLoop buffer base len num i b =
      (digitsLeft base len num, i + (digitList base len num).length,
        writeText b (buffer + i) (digitList base len num)) := by
  fun_induction itoaLoop buffer base len num i b with
  | case1 len i b => cases len <;> simp [digitsLeft, digitList]
  | case2 num i b => simp [digitsLeft, digitList]
  | case3 len num i b ih =>
    rw [ih, digitsLeft, digitList, put8_eq_writeText, length_cons]
    have behind : buffer + (i + 1) =
        buffer + i + [digitChar ((num + 1) % base : Nat)].length := rfl
    rw [behind, writeText_append, singleton_append]
    congr 2
    omega

theorem noNul_digitList (positive : 0 < base) (small : base ≤ 36) (len num : Nat) :
    0#8 ∉ digitList base len num := by
  fun_induction digitList base len num with
  | case1 => exact not_mem_nil
  | case2 => exact not_mem_nil
  | case3 len num ih =>
    have below := Nat.mod_lt (num + 1) positive
    rw [mem_cons, not_or]
    exact ⟨(digitChar_ne_zero (by omega) (by omega)).symm, ih⟩

theorem length_digitList_le (base len num : Nat) : (digitList base len num).length ≤ len := by
  fun_induction digitList base len num with
  | case1 => exact Nat.zero_le _
  | case2 => exact Nat.le_refl 0
  | case3 len num ih => exact Nat.succ_le_succ ih

/-- How many zeros `itoa` writes behind the digits; `none` for ever more. -/
def zeroCount (base : Nat) : Option Nat → Option Nat
  | none => if base ≠ 10 then none else some 0
  | some len => if base ≠ 10 then some len else some 0

theorem zeroLoop_eq (buffer base : Nat) (len : Option Nat) (i : Nat) (b : Bytes) :
    zeroLoop buffer base len i b = (zeroCount base len).map fun count =>
      (i + count, writeText b (buffer + i) (List.replicate count 48#8)) := by
  fun_induction zeroLoop buffer base len i b with
  | case1 i b other => simp [zeroCount, other]
  | case2 i b ten => simp [zeroCount, ten]
  | case3 i b => simp [zeroCount]
  | case4 len i b other ih =>
    rw [ih, zeroCount, zeroCount, if_pos other, if_pos other, map_some, map_some, put8_eq_writeText]
    have behind : buffer + (i + 1) = buffer + i + [48#8].length := rfl
    rw [behind, writeText_append, singleton_append, ← replicate_succ]
    congr 2
    omega
  | case5 len i b ten => simp [zeroCount, ten]

/-- The numeral that `itoa(num, buffer, base)` leaves; `none` if it does not end. -/
def itoaText (num : U32) (base : Nat) : Option (List (BitVec 8)) :=
  let len := if base = 2 then 32 else 8
  if num = 0#32 ∧ base = 2 then some (List.replicate 32 48#8)
  else (zeroCount base (digitsLeft base len num.toNat)).map fun count =>
    (digitList base len num.toNat ++ List.replicate count 48#8).reverse

theorem memset_eq_writeText (b : Bytes) (dest n : Nat) (c : BitVec 8) :
    memset b dest c n = writeText b dest (List.replicate n c) := by
  induction n generalizing b dest with
  | zero => simp [memset]
  | succ n ih =>
    have behind : dest + 1 = dest + [c].length := rfl
    rw [memset, ih, put8_eq_writeText, behind, writeText_append, singleton_append, ← replicate_succ]

theorem memset_inside {dest n : Nat} {c : BitVec 8} (low : dest ≤ k) (high : k < dest + n) :
    memset b dest c n k = c := by
  obtain ⟨j, rfl⟩ : ∃ j, k = dest + j := ⟨k - dest, by omega⟩
  have below : j < n := by omega
  rw [memset_eq_writeText, writeText_inside (by rw [length_replicate]; exact below),
    getD_replicate _ below]

theorem zeroCount_le {len : Option Nat} (counted : zeroCount base len = some count) :
    count ≤ len.getD 0 := by
  cases len with
  | none =>
    rw [zeroCount] at counted
    split at counted
    · exact nomatch counted
    · exact (Option.some.inj counted).symm.le
  | some len =>
    rw [zeroCount] at counted
    split at counted
    · exact (Option.some.inj counted).symm.le
    · exact (Option.some.inj counted).symm.le.trans (Nat.zero_le _)

theorem digitsLeft_le (base len num : Nat) : (digitsLeft base len num).getD 0 ≤ len := by
  fun_induction digitsLeft base len num with
  | case1 len => exact Nat.le_refl len
  | case2 num => exact Nat.le_refl 0
  | case3 len num ih => exact Nat.le_succ_of_le ih

/-- There are enough places for the digits. -/
theorem digitsLeft_isSome_iff (atLeastTwo : 2 ≤ base) (len num : Nat) :
    (digitsLeft base len num).isSome = true ↔ num < base ^ len := by
  fun_induction digitsLeft base len num with
  | case1 len => exact iff_of_true rfl (Nat.pow_pos (by omega))
  | case2 num => simp
  | case3 len num ih =>
    rw [ih, Nat.div_lt_iff_lt_mul (by omega), Nat.pow_succ]

/-- The numeral as a sequence of digits and zeros has no `NUL` and is short. -/
theorem reversed_numeral (positive : 0 < base) (small : base ≤ 36) {num : Nat}
    (counted : zeroCount base (digitsLeft base len num) = some count) :
    0#8 ∉ digitList base len num ++ List.replicate count 48#8 ∧
      (digitList base len num ++ List.replicate count 48#8).length ≤ 2 * len := by
  constructor
  · rw [mem_append, not_or]
    refine ⟨noNul_digitList positive small len num, fun zero => ?_⟩
    exact absurd (eq_of_mem_replicate zero) (by decide)
  · have digits := length_digitList_le base len num
    have zeros := (zeroCount_le counted).trans (digitsLeft_le base len num)
    rw [length_append, length_replicate]
    omega

theorem noNul_itoaText (positive : 0 < base) (small : base ≤ 36) (text : itoaText num base = some u) :
    0#8 ∉ u := by
  rw [itoaText] at text
  split at text
  · cases text
    intro zero
    exact absurd (eq_of_mem_replicate zero) (by decide)
  · obtain ⟨count, counted, rfl⟩ := map_eq_some_iff.mp text
    rw [mem_reverse]
    exact (reversed_numeral positive small counted).1

theorem length_itoaText (positive : 0 < base) (small : base ≤ 36)
    (text : itoaText num base = some u) : u.length ≤ 64 := by
  rw [itoaText] at text
  split at text
  · cases text
    rw [length_replicate]
    omega
  · obtain ⟨count, counted, rfl⟩ := map_eq_some_iff.mp text
    have short := (reversed_numeral positive small counted).2
    have places : (if base = 2 then 32 else 8) ≤ 32 := by split <;> omega
    rw [length_reverse]
    omega

/-- `itoa` ends when the number has no more digits than there are places, and in any case to
base 10. -/
theorem itoaText_isSome_iff (atLeastTwo : 2 ≤ base) :
    (itoaText num base).isSome = true ↔
      base = 10 ∨ num.toNat < base ^ (if base = 2 then 32 else 8) := by
  rw [itoaText]
  by_cases zero : num = 0#32 ∧ base = 2
  · rw [if_pos zero, zero.1, zero.2]
    decide
  · have places := digitsLeft_isSome_iff atLeastTwo (if base = 2 then 32 else 8) num.toNat
    rw [if_neg zero, isSome_map, ← places]
    cases digitsLeft base (if base = 2 then 32 else 8) num.toNat with
    | none => by_cases ten : base = 10 <;> simp [zeroCount, ten]
    | some left => by_cases ten : base = 10 <;> simp [zeroCount, ten]

/-- What `itoa` leaves in the buffer. -/
theorem itoa_eq (front : itoaText num base = some [] → 1 ≤ buffer) (positive : 0 < base) (small : base ≤ 36) :
    itoa b num buffer base = (itoaText num base).map (turned b buffer) := by
  rw [itoa, itoaText]
  by_cases zero : num = 0#32 ∧ base = 2
  · rw [if_pos zero, if_pos zero, if_pos zero.2, map_some, turned, if_neg (by decide),
      memset_eq_writeText, length_replicate]
  · rw [if_neg zero, if_neg zero]
    generalize width : (if base = 2 then 32 else 8) = len
    have narrow : len ≤ 32 := by
      rw [← width]
      split <;> omega
    rw [itoaLoop_eq]
    dsimp only
    rw [zeroLoop_eq]
    cases counted : zeroCount base (digitsLeft base len num.toNat) with
    | none => rfl
    | some count =>
      obtain ⟨noNul, short⟩ := reversed_numeral positive small counted
      rw [itoaText, if_neg zero, width, counted, map_some, Option.some.injEq,
        reverse_eq_nil_iff] at front
      rw [map_some, map_some, map_some, bind_eq_bind,
        bind_some, ← strrev_written front noNul (by omega), Nat.add_zero, Nat.zero_add,
        writeText_append, length_append, length_replicate]

/-- The digits that `sitoa` writes, the lowest first. -/
def signedDigits (base : Int) : (len : Nat) → (num : Int) → List (BitVec 8)
  | 0, _ => []
  | len + 1, num =>
    if num = 0 then [] else digitChar (num.tmod base) :: signedDigits base len (num.tdiv base)

theorem sitoaLoop_eq (buffer : Nat) (base : Int) (len : Nat) (num : Int) (i : Nat) (b : Bytes) :
    sitoaLoop buffer base len num i b = (i + (signedDigits base len num).length,
      writeText b (buffer + i) (signedDigits base len num)) := by
  fun_induction sitoaLoop buffer base len num i b with
  | case1 num i b => simp [signedDigits]
  | case2 len i b => simp [signedDigits]
  | case3 len num i b nonzero ih =>
    rw [ih, signedDigits, if_neg nonzero, put8_eq_writeText, length_cons]
    have behind : buffer + (i + 1) = buffer + i + [digitChar (num.tmod base)].length := rfl
    rw [behind, writeText_append, singleton_append]
    congr 1
    omega

theorem noNul_signedDigits (positive : 0 < base) (small : base ≤ 10) (len : Nat) (num : Int) :
    0#8 ∉ signedDigits base len num := by
  fun_induction signedDigits base len num with
  | case1 => exact not_mem_nil
  | case2 => exact not_mem_nil
  | case3 len num nonzero ih =>
    have above := Int.tmod_lt_of_pos num (by omega : (0 : Int) < base)
    have below := Int.lt_tmod_of_pos num (by omega : (0 : Int) < base)
    rw [mem_cons, not_or]
    exact ⟨(digitChar_ne_zero (by omega) (by omega)).symm, ih⟩

theorem length_signedDigits_le (base : Int) (len : Nat) (num : Int) :
    (signedDigits base len num).length ≤ len := by
  fun_induction signedDigits base len num with
  | case1 => exact Nat.le_refl 0
  | case2 => exact Nat.zero_le _
  | case3 len num nonzero ih => exact Nat.succ_le_succ ih

/-- The numeral that `sitoa(num, buffer, base)` leaves. -/
def sitoaText (minus : Bool) (num : U32) (base : Nat) : List (BitVec 8) :=
  if num = 0#32 ∨ base = 0 then [48#8]
  else
    (signedDigits base 8 (if num.toInt < 0 then abs num else num).toInt ++
      if minus ∧ num.toInt < 0 then [45#8] else []).reverse

theorem noNul_sitoaText (positive : 0 < base) (small : base ≤ 10) :
    0#8 ∉ sitoaText minus num base := by
  rw [sitoaText]
  split
  · decide
  · rw [mem_reverse, mem_append, not_or]
    refine ⟨noNul_signedDigits positive small 8 _, ?_⟩
    split
    · decide
    · exact not_mem_nil

theorem length_sitoaText :
    (sitoaText minus num base).length ≤ 9 := by
  rw [sitoaText]
  split
  · decide
  · have digits := length_signedDigits_le base 8 (if num.toInt < 0 then abs num else num).toInt
    have sign : (if minus = true ∧ num.toInt < 0 then [45#8] else []).length ≤ 1 := by
      split <;> decide
    rw [length_reverse, length_append]
    omega

/-- What `sitoa` leaves in the buffer. -/
theorem sitoaWith_eq (front : 1 ≤ buffer) (positive : 0 < base) (small : base ≤ 10) :
    sitoaWith minus b num buffer base = some (turned b buffer (sitoaText minus num base)) := by
  rw [sitoaWith, sitoaText]
  by_cases zero : num = 0#32 ∨ base = 0
  · rw [if_pos zero, if_pos zero, turned, if_neg (by decide), put8_eq_writeText b]
    rfl
  · rw [if_neg zero, if_neg zero]
    dsimp only
    rw [sitoaLoop_eq]
    generalize (if num.toInt < 0 then abs num else num).toInt = value
    generalize isSign : (if minus = true ∧ num.toInt < 0 then [45#8] else []) = sign
    have written : (if minus = true ∧ (decide ¬num.toInt < 0) = false then
          (0 + (signedDigits base 8 value).length + 1,
            put8 (writeText b (buffer + 0) (signedDigits base 8 value))
              (buffer + (0 + (signedDigits base 8 value).length)) 45#8)
        else (0 + (signedDigits base 8 value).length,
          writeText b (buffer + 0) (signedDigits base 8 value))) =
        ((signedDigits base 8 value ++ sign).length,
          writeText b buffer (signedDigits base 8 value ++ sign)) := by
      rw [← isSign, ← writeText_append, length_append, put8_eq_writeText]
      by_cases signed : minus = true ∧ num.toInt < 0 <;> simp [signed]
    have noNul : 0#8 ∉ signedDigits base 8 value ++ sign := by
      rw [mem_append, not_or, ← isSign]
      refine ⟨noNul_signedDigits positive small 8 value, ?_⟩
      split <;> decide
    have short := length_signedDigits_le base 8 value
    have single : sign.length ≤ 1 := by
      rw [← isSign]
      split <;> decide
    rw [written, strrev_written (fun _ => front) noNul (by rw [length_append]; omega)]

/-- The numeral that `ltoa` and `ctoa` leave. -/
def toaText {bits : Nat} (num : BitVec bits) (base : Nat) : List (BitVec 8) :=
  (digitList base bits num.toNat).reverse

theorem noNul_toaText {num : BitVec bits} (positive : 0 < base) (small : base ≤ 36) :
    0#8 ∉ toaText num base := by
  rw [toaText, mem_reverse]
  exact noNul_digitList positive small bits num.toNat

/-- What `ltoa` and `ctoa` leave in the buffer. -/
theorem toaWith_eq {num : BitVec bits} (front : toaText num base = [] → 1 ≤ buffer)
    (positive : 0 < base) (small : base ≤ 36) (narrow : bits ≤ 2 ^ 31) :
    toaWith bits b num buffer base = some (turned b buffer (toaText num base)) := by
  have noNul := noNul_digitList positive small bits num.toNat
  have short := length_digitList_le base bits num.toNat
  rw [toaText, reverse_eq_nil_iff] at front
  rw [toaWith, itoaLoop_eq, toaText, ← strrev_written front noNul (by omega), Nat.add_zero,
    Nat.zero_add]

end Crunchy
