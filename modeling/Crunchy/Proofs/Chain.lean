/-
Module: Crunchy.Proofs.Chain
Purpose: The searches over the block chain of `malloc.c`: what `find_best_free`
  picks, which block `find_block` finds for an address, and the address
  `translate` gives a block.
Trusted boundary: none
Main exports: sizes, BestFit, findBestFree_spec, toNat_sizeBefore, findBlock_of_covers
-/
import Crunchy.Mem.Malloc
import Crunchy.Lib.Segments

namespace Crunchy

open Lib BitVec List

variable {chain : List U32} {i j x : Nat} {cap n w : U32}

/-! ### Best fit -/

/-- A word that `find_best_free(n)` may take while it looks for at most `cap`
bytes. -/
def Fits (n cap w : U32) : Prop :=
  n ≤ blockSize w ∧ blockSize w ≤ cap ∧ blockUsed w = 0#32

/-- The best of the first `count` words: the smallest that fits, and of those the
last. -/
def BestFit (n cap : U32) (chain : List U32) (count : Nat) : Option Nat → Prop
  | none => ∀ j < count, ¬ Fits n cap (chainWord chain j)
  | some k => k < count ∧ Fits n cap (chainWord chain k) ∧
      ∀ j < count, Fits n cap (chainWord chain j) →
        blockSize (chainWord chain k) ≤ blockSize (chainWord chain j) ∧
          (blockSize (chainWord chain k) = blockSize (chainWord chain j) → j ≤ k)

/-- The size the loop still has to beat. -/
def sizeToBeat (cap : U32) (chain : List U32) : Option Nat → U32
  | none => cap
  | some k => blockSize (chainWord chain k)

/-- Words past the end are zero, which is too small. -/
theorem not_fits_past_end (positive : n ≠ 0#32) (past : chain.length ≤ j) :
    ¬ Fits n cap (chainWord chain j) := by
  rintro ⟨large, _, _⟩
  rw [chainWord, getD_eq_default _ _ past, le_def] at large
  apply positive
  apply eq_of_toNat_eq
  simpa [blockSize] using large

namespace BestFit

variable {n cap : U32} {chain : List U32} {block : Nat} {best : Option Nat}

/-- A word that beats the best so far is the new best. -/
theorem hit (soFar : BestFit n cap chain block best)
    (large : n ≤ blockSize (chainWord chain block))
    (beats : blockSize (chainWord chain block) ≤ sizeToBeat cap chain best)
    (unused : blockUsed (chainWord chain block) = 0#32) :
    BestFit n cap chain (block + 1) (some block) := by
  have fits : Fits n cap (chainWord chain block) := by
    cases best with
    | none => exact ⟨large, beats, unused⟩
    | some k => exact ⟨large, BitVec.le_trans beats soFar.2.1.2.1, unused⟩
  refine ⟨Nat.lt_succ_self _, fits, fun j below fitsJ => ⟨?_, fun _ => Nat.le_of_lt_succ below⟩⟩
  rcases Nat.lt_succ_iff_lt_or_eq.mp below with earlier | rfl
  · cases best with
    | none => exact absurd fitsJ (soFar j earlier)
    | some k => exact BitVec.le_trans beats (soFar.2.2 j earlier fitsJ).1
  · exact BitVec.le_refl _

/-- A word that does not beat the best so far leaves it. -/
theorem miss (soFar : BestFit n cap chain block best)
    (missed : ¬ (n ≤ blockSize (chainWord chain block) ∧
      blockSize (chainWord chain block) ≤ sizeToBeat cap chain best ∧
      blockUsed (chainWord chain block) = 0#32)) :
    BestFit n cap chain (block + 1) best := by
  cases best with
  | none =>
    intro j below
    rcases Nat.lt_succ_iff_lt_or_eq.mp below with earlier | rfl
    · exact soFar j earlier
    · exact missed
  | some k =>
    obtain ⟨inside, fits, least⟩ := soFar
    refine ⟨Nat.lt_succ_of_lt inside, fits, fun j below fitsJ => ?_⟩
    rcases Nat.lt_succ_iff_lt_or_eq.mp below with earlier | rfl
    · exact least j earlier fitsJ
    · have larger : blockSize (chainWord chain k) < blockSize (chainWord chain j) :=
        BitVec.not_le.mp fun beats => missed ⟨fitsJ.1, beats, fitsJ.2.2⟩
      exact ⟨BitVec.le_of_lt larger, fun same => absurd same (BitVec.ne_of_lt larger)⟩

/-- What lies past the end of the chain does not count. -/
theorem toLength (positive : n ≠ 0#32) (past : chain.length ≤ block)
    (whole : BestFit n cap chain block best) : BestFit n cap chain chain.length best := by
  cases best with
  | none => exact fun j below => whole j (Nat.lt_of_lt_of_le below past)
  | some k =>
    obtain ⟨_, fits, least⟩ := whole
    refine ⟨?_, fits, fun j below => least j (Nat.lt_of_lt_of_le below past)⟩
    exact Nat.lt_of_not_le fun beyond => not_fits_past_end positive beyond fits

end BestFit

/-- The loop of `find_best_free` ends and keeps the best word read. Between hits
`block` runs ahead of `i` by at most the length of the chain, so every word of the
chain has been read when `i` gets there. -/
theorem findBestFreeLoop_spec (positive : n ≠ 0#32) {fuel block : Nat} {best : Option Nat}
    (soFar : BestFit n cap chain block best) (behind : i ≤ block) (ahead : block ≤ i + chain.length)
    (enough : 2 * chain.length + 1 ≤ fuel + block) (counting : i ≤ chain.length) :
    ∃ r, findBestFreeLoop n chain fuel i block best (sizeToBeat cap chain best) = some r ∧
      BestFit n cap chain chain.length r := by
  induction fuel generalizing i block best with
  | zero => omega
  | succ fuel ih =>
    rw [findBestFreeLoop]
    by_cases more : i < chain.length
    · rw [if_pos more]
      dsimp only
      split
      · rename_i hit
        obtain ⟨large, beats, unused⟩ := hit
        have inChain : block < chain.length := by
          refine Nat.lt_of_not_le fun past => ?_
          exact not_fits_past_end positive past ⟨large, BitVec.le_refl _, unused⟩
        exact ih (soFar.hit large beats unused) (Nat.zero_le _) (by omega)
          (by omega) (Nat.zero_le _)
      · rename_i missed
        exact ih (soFar.miss missed) (by omega) (by omega) (by omega)
          (by omega)
    · rw [if_neg more]
      exact ⟨best, rfl, soFar.toLength positive (by omega)⟩

/-- `find_best_free(n)` ends for every `n` but 0, with the best fit of at most
`3 * n` bytes, the product taken in 32 bits. -/
theorem findBestFree_spec (positive : n ≠ 0#32) (chain : List U32) :
    ∃ r, findBestFree n chain = some r ∧ BestFit n (n * 3#32) chain chain.length r := by
  have start : BestFit n (n * 3#32) chain 0 none := fun _ below =>
    absurd below (Nat.not_lt_zero _)
  exact findBestFreeLoop_spec positive start (Nat.le_refl _) (Nat.zero_le _) (Nat.le_refl _)
    (Nat.zero_le _)

/-! ### Blocks and addresses -/

/-- The sizes of the blocks, as numbers. -/
def sizes (chain : List U32) : List Nat :=
  chain.map fun w => (blockSize w).toNat

@[simp] theorem length_sizes (chain : List U32) : (sizes chain).length = chain.length := by
  simp [sizes]

@[simp] theorem sizes_cons (w : U32) (rest : List U32) :
    sizes (w :: rest) = (blockSize w).toNat :: sizes rest := rfl

@[simp] theorem sizes_append (chain more : List U32) :
    sizes (chain ++ more) = sizes chain ++ sizes more := by
  simp [sizes]

theorem sum_sizes_snoc (chain : List U32) (w : U32) :
    (sizes (chain ++ [w])).sum = (sizes chain).sum + (blockSize w).toNat := by
  simp [sizes]

theorem getElem_sizes (inside : i < (sizes chain).length) :
    (sizes chain)[i] = (blockSize (chainWord chain i)).toNat := by
  have inChain : i < chain.length := by simpa using inside
  simp [sizes, chainWord, inChain]

theorem chainWord_set (inside : i = j → j < chain.length) :
    chainWord (chain.set j w) i = if i = j then w else chainWord chain i := by
  by_cases own : i = j
  · subst own
    simp [chainWord, inside rfl]
  · simp [chainWord, own, getElem?_set_ne (Ne.symm own)]

/-- Changing a used bit changes no size. -/
theorem sizes_set (same : blockSize w = blockSize (chainWord chain i)) :
    sizes (chain.set i w) = sizes chain := by
  have atIndex : sizes (chain.set i w) =
      (sizes chain).set i (blockSize (chainWord chain i)).toNat := by
    rw [sizes, map_set, same, sizes]
  rw [atIndex]
  by_cases inside : i < (sizes chain).length
  · rw [← getElem_sizes inside, set_getElem_self]
  · exact set_eq_of_length_le (Nat.le_of_not_lt inside)

/-- Adding up sizes in 32 bits is adding them up, as long as the total fits. -/
theorem toNat_foldl_sizes (chain : List U32) (total : U32)
    (fits : total.toNat + (sizes chain).sum < 2 ^ 32) :
    (chain.foldl (fun totalSize w => totalSize + blockSize w) total).toNat =
      total.toNat + (sizes chain).sum := by
  induction chain generalizing total with
  | nil => simp [sizes]
  | cons w rest ih =>
    simp only [sizes_cons, sum_cons] at fits ⊢
    have step : (total + blockSize w).toNat = total.toNat + (blockSize w).toNat := by
      rw [toNat_add, Nat.mod_eq_of_lt (by omega)]
    rw [foldl_cons, ih _ (by omega), step]
    omega

theorem toNat_sizeBefore {b : Nat} (fits : (sizes chain).sum < 2 ^ 32) :
    (sizeBefore chain b).toNat = offset (sizes chain) b := by
  have before : offset (sizes chain) b = (sizes (chain.take b)).sum := by
    rw [offset, sizes, sizes, map_take]
  have bounded : (sizes (chain.take b)).sum ≤ (sizes chain).sum := by
    rw [← before, ← offset_length]
    rcases Nat.le_total b (sizes chain).length with inside | past
    · exact offset_mono inside
    · rw [offset, take_of_length_le past, offset_length]
  rw [sizeBefore, toNat_foldl_sizes _ _ (by simpa using Nat.lt_of_le_of_lt bounded fits), before]
  simp

/-- The loop of `find_block` stops right after the block that covers the
distance. -/
theorem findBlockLoop_of_covers {toTraverse total : U32} {words : List U32} (block : Nat)
    (fits : total.toNat + (sizes words).sum < 2 ^ 32) (covers : Covers (sizes words) i x)
    (distance : toTraverse.toNat = total.toNat + x) :
    findBlockLoop toTraverse words total block = block + i + 1 := by
  induction words generalizing total i x block with
  | nil =>
    obtain ⟨inside, _, _⟩ := covers
    simp [sizes] at inside
  | cons w rest ih =>
    simp only [sizes_cons, sum_cons] at fits covers
    have step : (total + blockSize w).toNat = total.toNat + (blockSize w).toNat := by
      rw [toNat_add, Nat.mod_eq_of_lt (by omega)]
    rw [findBlockLoop]
    cases i with
    | zero =>
      have inFirst := covers.lt_first
      rw [if_pos (by rw [lt_def, step]; omega)]
    | succ i =>
      obtain ⟨past, inRest⟩ := covers.in_rest
      rw [if_neg (by rw [lt_def, step]; omega), ih (block + 1) (by omega) inRest (by omega)]
      omega

/-- `find_block` finds the block whose bytes cover the address. -/
theorem findBlock_of_covers {W : Type} {h : Heap W} {ptr : U32}
    (last : h.kLastAlloc.toNat = kHeapBottom.toNat + (sizes h.chain).sum)
    (covers : Covers (sizes h.chain) i x) (address : ptr.toNat = kHeapBottom.toNat + x) :
    findBlock ptr h = .entry i := by
  obtain ⟨inside, start, stop⟩ := covers
  have below := end_le_sum inside
  have low : ¬ h.kLastAlloc < ptr := by
    rw [lt_def]
    omega
  have distance : (ptr - kHeapBottom).toNat = (0#32).toNat + x := by
    rw [toNat_sub, toNat_ofNat]
    omega
  rw [findBlock, if_neg low, findBlockLoop_of_covers 0 (by rw [toNat_ofNat]; omega)
    ⟨inside, start, stop⟩ distance]
  simp

end Crunchy
