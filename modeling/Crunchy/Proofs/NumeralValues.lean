/-
Module: Crunchy.Proofs.NumeralValues
Purpose: Which numbers the numerals stand for that `itoa`, `sitoa` and `ltoa` leave, for which
  numbers they are right, and for which strings `strrev` is.
Trusted boundary: none
Main exports: Numeral, hex_and_binary_rendered, decimal_and_octal_iff, ltoa_rendered, Reverses,
  strrev_reverses_iff
-/
import Crunchy.Proofs.Numerals
import Mathlib.Data.Nat.Digits.Lemmas

namespace Crunchy

open Lib BitVec Option List

variable {b : Bytes} {text t u : List (BitVec 8)} {base buffer len n s : Nat} {num : U32}

/-! ### Numerals -/

/-- What a digit counts. -/
def charValue (c : BitVec 8) : Nat := if 57 < c.toNat then c.toNat - 55 else c.toNat - 48

/-- A text of digits of the base that stands for the number `n`. -/
structure Numeral (base n : Nat) (text : List (BitVec 8)) : Prop where
  digit : ∀ c ∈ text, ∃ d < base, c = digitChar (d : Nat)
  value : text.foldl (fun v c => v * base + charValue c) 0 = n

theorem charValue_digitChar : ∀ d < 36, charValue (digitChar (d : Nat)) = d := by decide

/-- Digits from the lowest on, turned round. -/
theorem numeral_of_digits {ds : List Nat} (small : base ≤ 36) (below : ∀ d ∈ ds, d < base) :
    Numeral base (Nat.ofDigits base ds) (ds.map fun d => digitChar (d : Nat)).reverse := by
  constructor
  · intro c member
    obtain ⟨d, inside, rfl⟩ := mem_map.mp (mem_reverse.mp member)
    exact ⟨d, below d inside, rfl⟩
  · induction ds with
    | nil => rfl
    | cons d ds ih =>
      have value := charValue_digitChar d (by have := below d (by simp); omega)
      rw [map_cons, reverse_cons, foldl_append,
        ih fun d inside => below d (mem_cons_of_mem _ inside), foldl_cons,
        foldl_nil, value, Nat.ofDigits_cons]
      ring

theorem digitList_eq (two : 1 < base) (len num : Nat) :
    digitList base len num =
      ((Nat.digits base num).take len).map fun d => digitChar (d : Nat) := by
  fun_induction digitList base len num with
  | case1 => simp
  | case2 => simp
  | case3 len num ih =>
    rw [Nat.digits_def' two (Nat.succ_pos num), take_succ_cons, map_cons, ih]

theorem digitsLeft_eq (two : 1 < base) {num : Nat} (fits : num < base ^ len) :
    digitsLeft base len num = some (len - (Nat.digits base num).length) := by
  fun_induction digitsLeft base len num with
  | case1 len => simp
  | case2 num => simp at fits
  | case3 len num ih =>
    rw [ih (by rwa [Nat.div_lt_iff_lt_mul (by omega), ← Nat.pow_succ]),
      Nat.digits_def' two (Nat.succ_pos num), length_cons]
    show some (len - _) = some (len + 1 - (_ + 1))
    rw [Nat.add_sub_add_right]

theorem take_digits_lt (two : 1 < base) {num : Nat} :
    ∀ d ∈ (Nat.digits base num).take len, d < base :=
  fun _ inside => Nat.digits_lt_base two (mem_of_mem_take inside)

/-- The digits that there is room for. -/
theorem numeral_digitList (two : 1 < base) (small : base ≤ 36) (len num : Nat) :
    Numeral base (num % base ^ len) (digitList base len num).reverse := by
  rw [digitList_eq two, Nat.self_mod_pow_eq_ofDigits_take len num two]
  exact numeral_of_digits small (take_digits_lt two)

/-! ### In memory -/

theorem CString.unique {memory : Bytes} (one : CString memory t) (two : CString memory u) :
    t = u := by
  have le : ∀ {t u}, CString memory t → CString memory u → t.length ≤ u.length := by
    intro t u one two
    by_contra less
    have zero := two.terminated
    rw [one.chars u.length (by omega)] at zero
    exact one.noNul (zero ▸ getElem_mem _)
  exact ext_getElem (Nat.le_antisymm (le one two) (le two one)) fun i inOne inTwo =>
    (one.chars i inOne).symm.trans (two.chars i inTwo)

/-- A text that is not empty stands in the buffer. -/
theorem cstring_turned (nonempty : u ≠ []) (noNul : 0#8 ∉ u) :
    CString (fun i => turned b s u (s + i)) u := by
  rw [turned, if_neg nonempty]
  exact cstring_writeText noNul

/-- What a reversal in place of the string `t` at `s` has to do. -/
def Reverses (b : Bytes) (s : Nat) (t : List (BitVec 8)) : Prop :=
  ∃ b', strrev b s = some b' ∧ CString (fun i => b' (s + i)) t.reverse ∧
    (∀ k, k < s ∨ s + t.length ≤ k → b' k = b k) ∧ strrev b' s = some b

theorem reverses_empty_iff (front : 1 ≤ s) (string : CString (fun i => b (s + i)) []) :
    Reverses b s [] ↔ b (s - 1) = 0#8 := by
  have here : b s = 0#8 := string.terminated
  have returned := strrev_empty string
  constructor
  · rintro ⟨b', same, -, outside, -⟩
    rw [returned, Option.some.injEq] at same
    rw [← outside (s - 1) (by omega), ← same, put8, patch_inside (by omega) (by omega)]
  · intro zero
    have same : put8 (put8 b s (b (s - 1))) (s - 1) 0#8 = b := by
      rw [zero]
      funext k
      by_cases before : k = s - 1
      · rw [before, put8, patch_inside (by omega) (by omega), zero]
      by_cases first : k = s
      · rw [first, put8, patch_outside (by omega), put8, patch_inside (by omega) (by omega), here]
      · rw [put8, patch_outside (by omega), put8, patch_outside (by omega)]
    rw [same] at returned
    exact ⟨b, returned, string, fun _ _ => rfl, returned⟩

theorem reverses_short (string : CString (fun i => b (s + i)) t) (short : t.length ≤ 2 ^ 31)
    (nonempty : t ≠ []) : Reverses b s t := by
  have outside : ∀ k, k < s ∨ s + t.length ≤ k → writeText b s t.reverse k = b k :=
    fun k outside => writeText_outside (by simpa using outside)
  have turned : CString (fun i => writeText b s t.reverse (s + i)) t.reverse := by
    refine ⟨fun j inside => ?_, ?_, by simpa using string.noNul⟩
    · rw [writeText_inside inside, getD_eq_getElem]
    · rw [length_reverse, outside _ (by omega)]
      exact string.terminated
  refine ⟨_, strrev_eq string short nonempty, turned, outside, ?_⟩
  rw [strrev_eq turned (by simpa using short) (by simpa using nonempty), reverse_reverse,
    Option.some.injEq]
  funext k
  by_cases inside : s ≤ k ∧ k < s + t.length
  · obtain ⟨j, rfl⟩ : ∃ j, k = s + j := ⟨k - s, by omega⟩
    rw [writeText_inside (by omega), getD_eq_getElem, string.chars j (by omega)]
  · rw [writeText_outside (by omega), outside k (by omega)]

/-- A string of more than `2 ^ 31` characters is left as it is. -/
theorem reverses_long_iff (string : CString (fun i => b (s + i)) t) (long : 2 ^ 31 < t.length)
    (fits : t.length < 2 ^ 32) : Reverses b s t ↔ t.reverse = t := by
  have returned : strrev b s = some b := by
    rw [strrev, string.strlen_eq fits, map_some, strrevRounds_long long fits]
    rfl
  constructor
  · rintro ⟨b', same, turned, -⟩
    rw [returned, Option.some.injEq] at same
    exact turned.unique (same ▸ string)
  · intro palindrome
    exact ⟨b, returned, palindrome.symm ▸ string, fun _ _ => rfl, returned⟩

/-- **Reversal in place.** The `int` that holds the length makes the exceptions. -/
theorem strrev_reverses_iff (front : 1 ≤ s) (string : CString (fun i => b (s + i)) t)
    (fits : t.length < 2 ^ 32) :
    Reverses b s t ↔
      if t = [] then b (s - 1) = 0#8 else t.length ≤ 2 ^ 31 ∨ t.reverse = t := by
  split
  · subst t
    exact reverses_empty_iff front string
  · rcases le_or_gt t.length (2 ^ 31) with short | long
    · exact iff_of_true (reverses_short string short (by assumption)) (.inl short)
    · rw [reverses_long_iff string long fits, or_iff_right (by omega)]

/-- The string `A` behind another character. -/
theorem strrev_reverses_single :
    (1 ≤ 1 ∧ CString (fun i => writeText (fun _ => 0#8) 0 [66#8, 65#8] (1 + i)) [65#8] ∧
      [65#8].length < 2 ^ 32) ∧ Reverses (writeText (fun _ => 0#8) 0 [66#8, 65#8]) 1 [65#8] := by
  have string : CString (fun i => writeText (fun _ => 0#8) 0 [66#8, 65#8] (1 + i)) [65#8] := by
    refine ⟨fun j inside => ?_, by decide, by decide⟩
    obtain rfl : j = 0 := by simpa using inside
    rfl
  exact ⟨⟨by decide, string, by decide⟩,
    (strrev_reverses_iff (by decide) string (by decide)).mpr (.inl (by decide))⟩

/-- The empty string behind another character: `strrev` cuts that one off. -/
theorem empty_string_swapped :
    ¬∀ (b : Bytes) (s : Nat) (t : List (BitVec 8)), 1 ≤ s → CString (fun i => b (s + i)) t →
      t.length < 2 ^ 32 → Reverses b s t := by
  intro reverses
  have string : CString (fun i => writeText (fun _ => 0#8) 0 [66#8] (1 + i)) [] :=
    ⟨nofun, by decide, by decide⟩
  have := (reverses_empty_iff (Nat.le_refl 1) string).mp
    (reverses _ 1 [] (Nat.le_refl 1) string (by decide))
  revert this
  decide

/-- The buffer holds this numeral, and no byte in front or behind its `NUL` has changed. -/
structure Renders (b b' : Bytes) (buffer base n : Nat) (text : List (BitVec 8)) : Prop where
  numeral : Numeral base n text
  string : CString (fun i => b' (buffer + i)) text
  outside : ∀ k, k < buffer ∨ buffer + text.length < k → b' k = b k

theorem renders_turned (nonempty : u ≠ []) (noNul : 0#8 ∉ u) (numeral : Numeral base n u) :
    Renders b (turned b buffer u) buffer base n u := by
  refine ⟨numeral, cstring_turned nonempty noNul, fun k outside => ?_⟩
  rw [turned, if_neg nonempty, put8, patch_outside (by omega), writeText_outside (by omega)]

/-! ### Hexadecimal and binary -/

/-- Where the digits fit, zeros fill up the places in front of them. -/
theorem itoaText_padded (two : 1 < base) (small : base ≤ 36) (notTen : base ≠ 10) {width : Nat}
    (isWidth : (if base = 2 then 32 else 8) = width) (fits : num.toNat < base ^ width) :
    ∃ text, itoaText num base = some text ∧ text.length = width ∧
      Numeral base num.toNat text := by
  rw [itoaText, isWidth]
  by_cases zero : num = 0#32 ∧ base = 2
  · obtain ⟨rfl, rfl⟩ := zero
    refine ⟨_, if_pos ⟨rfl, rfl⟩, isWidth ▸ length_replicate, by decide, by decide⟩
  · have places := (Nat.digits_length_le_iff two num.toNat).mpr fits
    have all : digitList base width num.toNat =
        (Nat.digits base num.toNat).map fun d => digitChar (d : Nat) := by
      rw [digitList_eq two, take_of_length_le places]
    rw [if_neg zero, digitsLeft_eq two fits, zeroCount, if_pos notTen, map_some, all]
    generalize isCount : width - (Nat.digits base num.toNat).length = count
    have zeros : List.replicate count 48#8 =
        (List.replicate count 0).map fun d => digitChar (d : Nat) := by
      rw [map_replicate]
      rfl
    have below : ∀ d ∈ Nat.digits base num.toNat ++ List.replicate count 0, d < base := by
      intro d inside
      rcases mem_append.mp inside with digit | zero
      · exact Nat.digits_lt_base two digit
      · rw [eq_of_mem_replicate zero]
        omega
    have numeral := numeral_of_digits small below
    rw [Nat.ofDigits_append_replicate_zero, Nat.ofDigits_digits, map_append, ← zeros] at numeral
    refine ⟨_, rfl, ?_, numeral⟩
    rw [length_reverse, length_append, length_map, length_replicate]
    omega

/-- The numeral that `itoa` leaves in the buffer. -/
theorem itoa_padded (b : Bytes) (buffer : Nat) (two : 1 < base) (small : base ≤ 36)
    (notTen : base ≠ 10) {width : Nat} (isWidth : (if base = 2 then 32 else 8) = width)
    (fits : num.toNat < base ^ width) :
    ∃ b' text, itoa b num buffer base = some b' ∧ text.length = width ∧
      Renders b b' buffer base num.toNat text := by
  obtain ⟨text, isText, length, numeral⟩ := itoaText_padded two small notTen isWidth fits
  have nonempty : text ≠ [] := by
    rintro rfl
    rw [← isWidth, length_nil] at length
    split at length <;> omega
  have noNul := noNul_itoaText (by omega) small isText
  refine ⟨turned b buffer text, text, ?_, length, renders_turned nonempty noNul numeral⟩
  rw [itoa_eq (fun empty => absurd (Option.some.inj (isText.symm.trans empty)) nonempty)
    (by omega) small, isText, map_some]

/-- **Hexadecimal and binary.** Every number has 8 hexadecimal and 32 binary digits. -/
theorem hex_and_binary_rendered (b : Bytes) (num : U32) (buffer : Nat) :
    (∃ b' text, itoa b num buffer 16 = some b' ∧ text.length = 8 ∧
      Renders b b' buffer 16 num.toNat text) ∧
    ∃ b' text, itoa b num buffer 2 = some b' ∧ text.length = 32 ∧
      Renders b b' buffer 2 num.toNat text :=
  ⟨itoa_padded b buffer (by decide) (by decide) (by decide) rfl num.isLt,
    itoa_padded b buffer (by decide) (by decide) (by decide) rfl num.isLt⟩

/-! ### Decimal and octal -/

/-- There is a numeral of this value in the buffer. -/
def HasNumeral (memory : Bytes) (base n : Nat) : Prop :=
  ∃ text, text ≠ [] ∧ CString memory text ∧ Numeral base n text

theorem hasNumeral_turned_iff (nonempty : u ≠ []) (noNul : 0#8 ∉ u) (numeral : Numeral base n u)
    (m : Nat) : HasNumeral (fun i => turned b s u (s + i)) base m ↔ n = m := by
  have string := cstring_turned (b := b) (s := s) nonempty noNul
  constructor
  · rintro ⟨text, _, isText, value⟩
    rw [← numeral.value, ← value.value, string.unique isText]
  · rintro rfl
    exact ⟨u, nonempty, string, numeral⟩

theorem itoaText_ten (num : U32) : itoaText num 10 = some (digitList 10 8 num.toNat).reverse := by
  have zeros : ∀ len, zeroCount 10 len = some 0 := fun len => by cases len <;> rfl
  rw [itoaText, if_neg (by simp), zeros, Option.map_some, List.replicate_zero, List.append_nil]
  rfl

theorem digitList_ne_nil (positive : 0 < n) : digitList base (len + 1) n ≠ [] := by
  obtain ⟨n, rfl⟩ : ∃ m, n = m + 1 := ⟨n - 1, by omega⟩
  rw [digitList]
  exact cons_ne_nil _ _

/-- The string that the empty numeral leaves: `strrev` brings the byte before the buffer into
it. -/
def shiftedIn (b : Bytes) (buffer : Nat) : Bytes := fun i => b (if i = 0 then buffer - 1 else buffer + i)

theorem decimal_iff (front : 1 ≤ buffer) :
    (∃ b', itoa b num buffer 10 = some b' ∧
        HasNumeral (fun i => b' (buffer + i)) 10 num.toNat) ↔
      0 < num.toNat ∧ num.toNat < 10 ^ 8 ∨ num.toNat = 0 ∧ HasNumeral (shiftedIn b buffer) 10 0 := by
  have text := itoaText_ten num
  rw [itoa_eq (fun _ => front) (by decide) (by decide), text, map_some]
  simp only [Option.some.injEq, exists_eq_left']
  rcases Nat.eq_zero_or_pos num.toNat with zero | positive
  · have same : ∀ i, turned b buffer [] (buffer + i) = shiftedIn b buffer i := by
      intro i
      rw [turned, if_pos rfl, put8, patch_outside (by omega), shiftedIn]
      split
      · rename_i first
        rw [first, put8, patch_inside (by omega) (by omega)]
      · rw [put8, patch_outside (by omega)]
    rw [zero, digitList, reverse_nil, funext same]
    simp
  · have numeral := numeral_digitList (show 1 < 10 by decide) (by decide) 8 num.toNat
    rw [hasNumeral_turned_iff _ (noNul_itoaText (by decide) (by decide) text) numeral]
    · omega
    · simpa using digitList_ne_nil positive

theorem octal_iff (front : 1 ≤ buffer) :
    (∃ b', itoa b num buffer 8 = some b' ∧ HasNumeral (fun i => b' (buffer + i)) 8 num.toNat) ↔
      num.toNat < 8 ^ 8 := by
  constructor
  · rintro ⟨b', returned, -⟩
    rw [itoa_eq (fun _ => front) (by decide) (by decide)] at returned
    obtain ⟨text, rendered, _⟩ := map_eq_some_iff.mp returned
    simpa using (itoaText_isSome_iff (by decide)).mp (isSome_of_eq_some rendered)
  · intro fits
    obtain ⟨b', text, returned, length, renders⟩ :=
      itoa_padded b buffer (show 1 < 8 by decide) (by decide) (by decide) rfl fits
    refine ⟨b', returned, text, ?_, renders.string, renders.numeral⟩
    rintro rfl
    simp at length

/-! ### There and back -/

theorem atoi_eq (string : CString (fun i => b (s + i)) t) (short : t.length < 2 ^ 32) :
    atoi b s = some (atoiText t) := by
  have chars : (List.range t.length).map (fun i => b (s + i)) = t := by
    refine ext_getElem (by simp) fun i _ inside => ?_
    simpa using string.chars i inside
  rw [atoi, string.strlen_eq short, map_some, chars]

theorem decimalDigit_spec : ∀ d < 10, isdigit (digitChar (d : Nat)) ∧ digitChar (d : Nat) ≠ 45#8 ∧
    BitVec.ofInt 32 ((digitChar (d : Nat)).toInt - 48) =
      BitVec.ofNat 32 (charValue (digitChar (d : Nat))) := by
  decide

theorem foldl_atoi (digits : ∀ c ∈ text, ∃ d < 10, c = digitChar (d : Nat)) (v : Nat) :
    text.foldl (fun num c => if isdigit c then num * 10#32 + BitVec.ofInt 32 (c.toInt - 48)
        else num) (BitVec.ofNat 32 v) =
      BitVec.ofNat 32 (text.foldl (fun v c => v * 10 + charValue c) v) := by
  induction text generalizing v with
  | nil => rfl
  | cons c text ih =>
    obtain ⟨d, below, rfl⟩ := digits c mem_cons_self
    obtain ⟨isDigit, _, value⟩ := decimalDigit_spec d below
    rw [foldl_cons, if_pos isDigit, value, foldl_cons,
      ← ih fun c inside => digits c (mem_cons_of_mem _ inside), ofNat_add, ofNat_mul]

/-- A numeral behind an optional sign. -/
theorem atoiText_numeral (negative : Bool) (numeral : Numeral 10 n text) :
    atoiText ((if negative then [45#8] else []) ++ text) =
      (if negative then -1#32 else 1#32) * BitVec.ofNat 32 n := by
  have value := foldl_atoi numeral.digit 0
  rw [numeral.value] at value
  cases negative with
  | true => exact congrArg (-1#32 * ·) value
  | false =>
    have noSign : text.headD 0#8 ≠ 45#8 := by
      cases text with
      | nil => decide
      | cons c text =>
        obtain ⟨d, below, rfl⟩ := numeral.digit c mem_cons_self
        exact (decimalDigit_spec d below).2.1
    show (if text.headD 0#8 = 45#8 then -1#32 else 1#32) * _ = _
    rw [if_neg noSign]
    exact congrArg _ value

theorem signedDigits_eq (len n : Nat) : signedDigits (10 : Nat) len n = digitList 10 len n := by
  induction len generalizing n with
  | zero => cases n <;> rfl
  | succ len ih =>
    cases n with
    | zero => rfl
    | succ n =>
      rw [signedDigits, if_neg (by omega), digitList, ← ih]
      rfl

theorem abs_toInt (num : U32) (notMin : num ≠ 0x80000000#32) :
    (if num.toInt < 0 then abs num else num).toInt = num.toInt.natAbs := by
  rw [abs]
  split
  · rw [BitVec.mul_neg, BitVec.mul_one,
      BitVec.toInt_neg_of_ne_intMin fun least => notMin (least.trans rfl)]
    omega
  · omega

/-- The text of `sitoa` shows the last eight digits behind the sign. -/
theorem atoiText_sitoaText (nonzero : num ≠ 0#32) (notMin : num ≠ 0x80000000#32) :
    atoiText (sitoaText true num 10) =
      (if num.toInt < 0 then -1#32 else 1#32) * BitVec.ofNat 32 (num.toInt.natAbs % 10 ^ 8) := by
  have numeral := numeral_digitList (show 1 < 10 by decide) (by decide) 8 num.toInt.natAbs
  have shown := atoiText_numeral (num.toInt < 0) numeral
  rw [sitoaText, if_neg (by simp [nonzero]), abs_toInt num notMin, signedDigits_eq,
    List.reverse_append]
  by_cases negative : num.toInt < 0
  · simpa [negative] using shown
  · simpa [negative] using shown

theorem signed_eq_iff {m : Nat} (below : m < 2 ^ 32) :
    (if num.toInt < 0 then -1#32 else 1#32) * BitVec.ofNat 32 m = num ↔ m = num.toInt.natAbs := by
  have bound := num.isLt
  have value := BitVec.toInt_eq_toNat_cond num
  have written : (BitVec.ofNat 32 m).toNat = m := by
    rw [BitVec.toNat_ofNat, Nat.mod_eq_of_lt below]
  split
  · rw [BitVec.neg_mul, BitVec.one_mul, neg_eq_iff_eq_neg, ← BitVec.toNat_inj, written,
      BitVec.toNat_neg]
    split at value <;> omega
  · rw [BitVec.one_mul, ← BitVec.toNat_inj, written]
    split at value <;> omega

theorem sitoaText_ne_nil : sitoaText minus num 10 ≠ [] := by
  rw [sitoaText]
  split
  · exact cons_ne_nil _ _
  · rename_i nonzero
    have value : (if num.toInt < 0 then abs num else num).toInt ≠ 0 := by
      by_cases least : num = 0x80000000#32
      · rw [least]
        decide
      · have : num.toInt ≠ 0 := fun zero => nonzero (.inl (toInt_inj.mp zero))
        rw [abs_toInt num least]
        omega
    rw [signedDigits, if_neg value]
    simp

theorem sitoaText_length_le : (sitoaText minus num base).length ≤ 9 := by
  rw [sitoaText]
  split
  · simp
  · have digits := length_signedDigits_le base 8 (if num.toInt < 0 then abs num else num).toInt
    rw [length_reverse, length_append]
    have sign : (if minus ∧ num.toInt < 0 then [45#8] else []).length ≤ 1 := by split <;> simp
    omega

theorem sitoa_atoi_iff (front : 1 ≤ buffer) :
    (∃ b', Libc.sitoa b num buffer 10 = some b' ∧ atoi b' buffer = some num) ↔
      num.toInt.natAbs < 10 ^ 8 := by
  have text : atoi (turned b buffer (sitoaText true num 10)) buffer =
      some (atoiText (sitoaText true num 10)) :=
    atoi_eq (cstring_turned sitoaText_ne_nil (noNul_sitoaText (by decide) (by decide)))
      (Nat.lt_of_le_of_lt sitoaText_length_le (by decide))
  rw [Libc.sitoa, sitoaWith_eq front (by decide) (by decide)]
  simp only [Option.some.injEq, exists_eq_left', text]
  by_cases zero : num = 0#32
  · rw [zero]
    decide
  by_cases least : num = 0x80000000#32
  · rw [least]
    decide
  rw [atoiText_sitoaText zero least, signed_eq_iff (by omega)]
  have := num.toInt_lt
  have := num.le_toInt
  omega

/-- **Decimal and octal.** `itoa` leaves a numeral of `num` and `atoi` reads the one of `sitoa`
back where eight digits are enough. The numeral of 0 in base 10 is empty, and what the buffer
then holds depends on the byte before it. -/
theorem decimal_and_octal_iff (b : Bytes) (num : U32) (front : 1 ≤ buffer) :
    ((∃ b', itoa b num buffer 10 = some b' ∧
        HasNumeral (fun i => b' (buffer + i)) 10 num.toNat) ↔
      0 < num.toNat ∧ num.toNat < 10 ^ 8 ∨ num.toNat = 0 ∧ HasNumeral (shiftedIn b buffer) 10 0) ∧
    ((∃ b', itoa b num buffer 8 = some b' ∧ HasNumeral (fun i => b' (buffer + i)) 8 num.toNat) ↔
      num.toNat < 8 ^ 8) ∧
    ((∃ b', Libc.sitoa b num buffer 10 = some b' ∧ atoi b' buffer = some num) ↔
      num.toInt.natAbs < 10 ^ 8) :=
  ⟨decimal_iff front, octal_iff front, sitoa_atoi_iff front⟩

theorem decimal_and_octal_seven :
    1 ≤ 1 ∧ ((∃ b', itoa (fun _ => 0#8) 7#32 1 10 = some b' ∧
        HasNumeral (fun i => b' (1 + i)) 10 7) ∧
      (∃ b', itoa (fun _ => 0#8) 7#32 1 8 = some b' ∧ HasNumeral (fun i => b' (1 + i)) 8 7) ∧
      ∃ b', Libc.sitoa (fun _ => 0#8) 7#32 1 10 = some b' ∧ atoi b' 1 = some 7#32) := by
  obtain ⟨decimal, octal, signed⟩ := decimal_and_octal_iff (fun _ => 0#8) 7#32 (Nat.le_refl 1)
  exact ⟨Nat.le_refl 1, decimal.mpr (.inl (by decide)), octal.mpr (by decide),
    signed.mpr (by decide)⟩

/-- The first digit of nine is lost. -/
theorem nine_digits_not_rendered :
    ¬∀ (b : Bytes) (num : U32) (buffer : Nat), 1 ≤ buffer →
      (∃ b', itoa b num buffer 10 = some b' ∧
        HasNumeral (fun i => b' (buffer + i)) 10 num.toNat) ∧
      (∃ b', itoa b num buffer 8 = some b' ∧ HasNumeral (fun i => b' (buffer + i)) 8 num.toNat) ∧
      ∃ b', Libc.sitoa b num buffer 10 = some b' ∧ atoi b' buffer = some num := by
  intro renders
  have front := Nat.le_refl 1
  have fits := (decimal_iff front).mp (renders (fun _ => 0#8) 100000000#32 1 front).1
  revert fits
  simp

/-! ### 64 bits -/

/-- **64-bit numbers.** `ltoa` leaves a numeral without a zero in front. -/
theorem ltoa_rendered (b : Bytes) (buffer : Nat) {num : BitVec 64} (nonzero : num ≠ 0#64)
    (two : 2 ≤ base) (small : base ≤ 36) :
    ∃ b' text, ltoa b num buffer base = some b' ∧ text ≠ [] ∧ text.head? ≠ some 48#8 ∧
      Renders b b' buffer base num.toNat text := by
  have positive : num.toNat ≠ 0 := fun zero => nonzero (eq_of_toNat_eq zero)
  have fits : num.toNat < base ^ 64 := Nat.lt_of_lt_of_le num.isLt (Nat.pow_le_pow_left two 64)
  have all := (Nat.digits_length_le_iff two num.toNat).mpr fits
  have isText : toaText num base =
      ((Nat.digits base num.toNat).map fun d => digitChar (d : Nat)).reverse := by
    rw [toaText, digitList_eq two, take_of_length_le all]
  have numeral := numeral_digitList two small 64 num.toNat
  rw [Nat.mod_eq_of_lt fits] at numeral
  have digits := (Nat.digits_ne_nil_iff_ne_zero (b := base)).mpr positive
  have nonempty : toaText num base ≠ [] := by
    rw [isText]
    simpa using digits
  refine ⟨_, _, toaWith_eq (fun empty => absurd empty nonempty) (by omega) small (by decide),
    nonempty, ?_, renders_turned nonempty (noNul_toaText (by omega) small) numeral⟩
  intro first
  rw [isText, head?_reverse, getLast?_map, getLast?_eq_some_getLast digits,
    map_some, Option.some.injEq] at first
  have last := Nat.getLast_digit_ne_zero base positive
  have below := Nat.digits_lt_base two (getLast_mem digits)
  have value := charValue_digitChar _ (Nat.lt_of_lt_of_le below small)
  rw [first] at value
  exact last value.symm

theorem ltoa_rendered_ten :
    (10#64 ≠ 0#64 ∧ 2 ≤ 10 ∧ 10 ≤ 36) ∧
      ∃ b' text, ltoa (fun _ => 0#8) 10#64 0 10 = some b' ∧ text ≠ [] ∧
        text.head? ≠ some 48#8 ∧ Renders (fun _ => 0#8) b' 0 10 (10#64).toNat text :=
  ⟨by decide, ltoa_rendered _ 0 (by decide) (by decide) (by decide)⟩

end Crunchy
