/-
Module: Crunchy.Lib.BitWords
Purpose: Sets of indices packed one bit each into an array of words: membership,
  insertion and removal of one index, and the scan for the first index that is
  not in the set.
Trusted boundary: none
Main exports: Words, mem, insert, erase, firstClear, firstClear_eq_some_iff
-/
import Mathlib.Logic.Function.Basic
import Mathlib.Data.Nat.Basic

namespace Crunchy.Lib

open BitVec List Function

/-- The words an array of `w`-bit words holds, by index. -/
abbrev Words (w : Nat) := Nat → BitVec w

namespace Words

variable {w : Nat}

/-- Index `k` is in the packed set when bit `k % w` of word `k / w` is set. -/
def mem (words : Words w) (k : Nat) : Bool :=
  (words (k / w)).getLsbD (k % w)

/-- Set the bit of index `k`. -/
def insert (words : Words w) (k : Nat) : Words w :=
  Function.update words (k / w) (words (k / w) ||| 1#w <<< (k % w))

/-- Clear the bit of index `k`. -/
def erase (words : Words w) (k : Nat) : Words w :=
  Function.update words (k / w) (words (k / w) &&& ~~~(1#w <<< (k % w)))

/-- The first clear bit among `count` words, the words taken upwards and each
word from its lowest bit. -/
def firstClear (words : Words w) (count : Nat) : Option Nat :=
  (List.range count).findSome? fun q =>
    let freeBits := words q ^^^ BitVec.allOnes w
    (List.range w).findSome? fun i =>
      if freeBits &&& 1#w <<< i ≠ 0#w then some (i + q * w) else none

@[simp] theorem mem_zero (k : Nat) : mem (fun _ => 0#w) k = false := by
  simp [mem]

/-- Two indices with the same word and the same bit are equal. -/
private theorem index_ext {k j : Nat} (sameWord : k / w = j / w)
    (sameBit : k % w = j % w) : k = j := by
  rw [← Nat.div_add_mod k w, ← Nat.div_add_mod j w, sameWord, sameBit]

private theorem oneBit_getLsbD {i j : Nat} (inside : i < w) :
    (1#w <<< i).getLsbD j = decide (i = j) := by
  rw [← twoPow_eq, getLsbD_twoPow]
  simp [inside]

theorem mem_insert (words : Words w) (k j : Nat) (positive : 0 < w) :
    (words.insert k).mem j = (decide (j = k) || words.mem j) := by
  have kBit : k % w < w := Nat.mod_lt _ positive
  by_cases sameWord : j / w = k / w
  · rw [mem, insert, sameWord, update_self, getLsbD_or,
      oneBit_getLsbD kBit, mem, sameWord, Bool.or_comm]
    congr 1
    exact decide_eq_decide.mpr
      ⟨fun sameBit => index_ext sameWord sameBit.symm, fun same => by rw [same]⟩
  · have other : j ≠ k := fun equal => sameWord (by rw [equal])
    simp [mem, insert, update_of_ne sameWord, other]

theorem mem_erase (words : Words w) (k j : Nat) (positive : 0 < w) :
    (words.erase k).mem j = (decide (j ≠ k) && words.mem j) := by
  have kBit : k % w < w := Nat.mod_lt _ positive
  have jBit : j % w < w := Nat.mod_lt _ positive
  by_cases sameWord : j / w = k / w
  · rw [mem, erase, sameWord, update_self, getLsbD_and, getLsbD_not,
      oneBit_getLsbD kBit, mem, sameWord, Bool.and_comm]
    congr 1
    have bits : k % w = j % w ↔ j = k :=
      ⟨fun sameBit => index_ext sameWord sameBit.symm, fun same => by rw [same]⟩
    simp [jBit, bits]
  · have other : j ≠ k := fun equal => sameWord (by rw [equal])
    simp [mem, erase, update_of_ne sameWord, other]

/-- The test the scan makes of one bit. -/
theorem freeBit_iff (word : BitVec w) {i : Nat} (inside : i < w) :
    ((word ^^^ BitVec.allOnes w) &&& 1#w <<< i ≠ 0#w) ↔ word.getLsbD i = false := by
  have nonzero : BitVec.twoPow w i ≠ 0#w := by
    intro zero
    have bit := congrArg (fun bits => BitVec.getLsbD bits i) zero
    simp [inside] at bit
  rw [← twoPow_eq, and_twoPow, getLsbD_xor, getLsbD_allOnes]
  cases set : word.getLsbD i <;> simp [inside, nonzero]

private theorem mem_of_word_bit (words : Words w) (q : Nat) {i : Nat} (inside : i < w) :
    words.mem (q * w + i) = (words q).getLsbD i := by
  have word : (q * w + i) / w = q := by
    rw [Nat.mul_comm, Nat.mul_add_div (by omega), Nat.div_eq_of_lt inside, Nat.add_zero]
  have bit : (q * w + i) % w = i := by
    rw [Nat.mul_comm, Nat.mul_add_mod, Nat.mod_eq_of_lt inside]
  rw [mem, word, bit]

private theorem scanBits_eq_find? (words : Words w) (q : Nat) (bits : List Nat)
    (inside : ∀ i ∈ bits, i < w) :
    (bits.findSome? fun i =>
      if (words q ^^^ BitVec.allOnes w) &&& 1#w <<< i ≠ 0#w then some (i + q * w) else none) =
      (bits.map (q * w + ·)).find? fun k => !words.mem k := by
  induction bits with
  | nil => rfl
  | cons i rest ih =>
    have member := mem_of_word_bit words q (inside i (by simp))
    have free := freeBit_iff (words q) (inside i (by simp))
    rw [findSome?_cons, map_cons, find?_cons, member,
      ih fun j inRest => inside j (by simp [inRest])]
    cases set : (words q).getLsbD i with
    | true => rw [if_neg (by rw [free, set]; simp)]; rfl
    | false => rw [if_pos (free.mpr set)]; simp [Nat.add_comm]

theorem firstClear_eq_find? (words : Words w) (count : Nat) :
    words.firstClear count = (List.range (count * w)).find? fun k => !words.mem k := by
  induction count with
  | zero => simp [firstClear]
  | succ count ih =>
    have split : words.firstClear (count + 1) =
        (words.firstClear count).or
          (((List.range w).map (count * w + ·)).find? fun k => !words.mem k) := by
      rw [← scanBits_eq_find? words count (List.range w) fun i => mem_range.mp]
      rw [firstClear, range_succ, findSome?_append, findSome?_singleton]
      rfl
    rw [split, ih, Nat.succ_mul, range_add, find?_append]

/-- The scan returns the least index that is not in the set. -/
theorem firstClear_eq_some_iff {words : Words w} {count k : Nat} :
    words.firstClear count = some k ↔
      k < count * w ∧ words.mem k = false ∧ ∀ j < k, words.mem j = true := by
  rw [firstClear_eq_find?, find?_range_eq_some]
  simp only [Bool.not_eq_true', mem_range, Bool.not_not]
  exact ⟨fun ⟨clear, inside, below⟩ => ⟨inside, clear, below⟩,
    fun ⟨inside, clear, below⟩ => ⟨clear, inside, below⟩⟩

/-- The scan finds nothing exactly when every index is in the set. -/
theorem firstClear_eq_none_iff {words : Words w} {count : Nat} :
    words.firstClear count = none ↔ ∀ k < count * w, words.mem k = true := by
  rw [firstClear_eq_find?, find?_range_eq_none]
  simp

end Words

end Crunchy.Lib
