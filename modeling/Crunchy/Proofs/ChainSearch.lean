/-
Module: Crunchy.Proofs.ChainSearch
Purpose: What the searches over the block chain mean: `find_best_free` is a best
  fit among the free blocks, and `find_block` and `translate` are inverse to each
  other on the addresses of the heap.
Trusted boundary: none
Main exports: Free, entrySize, find_best_free_is_best_fit, BlockHolds,
  find_block_inverts_translate
-/
import Crunchy.Proofs.Chain

namespace Crunchy

open Lib BitVec

/-- Entry `i` of the chain is free. -/
def Free (chain : List U32) (i : Nat) : Prop :=
  i < chain.length ∧ blockUsed (chainWord chain i) = 0#32

/-- The size of entry `i`. -/
def entrySize (chain : List U32) (i : Nat) : Nat := (blockSize (chainWord chain i)).toNat

/-! ### Best fit -/

/-- What `find_best_free(n)` may take, in numbers. -/
theorem fits_iff {n w : U32} (small : 3 * n.toNat < 2 ^ 32) :
    Fits n (n * 3#32) w ↔ n.toNat ≤ (blockSize w).toNat ∧ (blockSize w).toNat ≤ 3 * n.toNat ∧
      blockUsed w = 0#32 := by
  have triple : (n * 3#32).toNat = 3 * n.toNat := by
    rw [toNat_mul, toNat_ofNat]
    omega
  rw [Fits, le_def, le_def, triple]

/-- For every chain and every `n` from 1 on with `3 * n < 2 ^ 32`, `find_best_free(n)` ends.
It is `NULL` exactly when no free entry has between `n` and `3 * n` bytes, and otherwise
the last of the smallest free entries that have `n` bytes. -/
theorem find_best_free_is_best_fit (chain : List U32) {n : U32} (positive : 1 ≤ n.toNat)
    (small : 3 * n.toNat < 2 ^ 32) :
    ∃ r, findBestFree n chain = some r ∧
      (r = none ↔ ∀ i, Free chain i →
        ¬(n.toNat ≤ entrySize chain i ∧ entrySize chain i ≤ 3 * n.toNat)) ∧
      ∀ k, r = some k → Free chain k ∧ n.toNat ≤ entrySize chain k ∧
        ∀ i, Free chain i → n.toNat ≤ entrySize chain i →
          entrySize chain k ≤ entrySize chain i ∧
            (entrySize chain i = entrySize chain k → i ≤ k) := by
  have nonzero : n ≠ 0#32 := by
    rintro rfl
    exact absurd positive (by decide)
  obtain ⟨r, ends, best⟩ := findBestFree_spec nonzero chain
  refine ⟨r, ends, ?_⟩
  cases r with
  | none =>
    refine ⟨⟨fun _ i free fits => ?_, fun _ => rfl⟩, nofun⟩
    exact best i free.1 ((fits_iff small).mpr ⟨fits.1, fits.2, free.2⟩)
  | some k =>
    obtain ⟨inside, fits, least⟩ := best
    obtain ⟨large, bounded, unused⟩ := (fits_iff small).mp fits
    refine ⟨⟨nofun, fun noFit => absurd ⟨large, bounded⟩ (noFit k ⟨inside, unused⟩)⟩, ?_⟩
    intro k' same
    cases same
    refine ⟨⟨inside, unused⟩, large, fun i free enough => ?_⟩
    by_cases tooLarge : 3 * n.toNat < entrySize chain i
    · -- an entry the search leaves out is larger than the one it found
      have larger : entrySize chain k < entrySize chain i := Nat.lt_of_le_of_lt bounded tooLarge
      exact ⟨Nat.le_of_lt larger, fun same => by omega⟩
    · have fitsToo := (fits_iff small).mpr ⟨enough, Nat.le_of_not_lt tooLarge, free.2⟩
      obtain ⟨smaller, last⟩ := least i free.1 fitsToo
      exact ⟨smaller, fun same => last (eq_of_toNat_eq same.symm)⟩

/-- A used entry, one of 200 bytes and two of 100: the last one is taken for 50 bytes. -/
theorem last_smallest_taken :
    findBestFree 50#32 [0x80000032#32, 200#32, 100#32, 100#32] = some (some 3) ∧
      entrySize [0x80000032#32, 200#32, 100#32, 100#32] 3 ≤
        entrySize [0x80000032#32, 200#32, 100#32, 100#32] 1 := by
  obtain ⟨r, ends, _, best⟩ := find_best_free_is_best_fit
    [0x80000032#32, 200#32, 100#32, 100#32] (n := 50#32) (by decide) (by decide)
  have found : findBestFree 50#32 [0x80000032#32, 200#32, 100#32, 100#32] = some (some 3) := by
    decide +kernel
  have same : r = some 3 := Option.some.inj (ends.symm.trans found)
  have least := (best 3 same).2.2 1 ⟨by decide, by decide⟩ (by decide)
  exact ⟨found, least.1⟩

/-! ### Blocks and addresses -/

section Addresses

variable {W : Type} {h : Heap W}

/-- Entry `b` holds the byte at the address `p`. -/
def BlockHolds (printf : Heap W → Option (Heap W)) (h : Heap W) (b : Nat) (p : U32) : Prop :=
  ∃ start, translate printf b h = some (start, h) ∧ start.toNat ≤ p.toNat ∧
    p.toNat < start.toNat + entrySize h.chain b

/-- `translate` gives an entry the sum of the sizes before it, counted from the bottom. -/
theorem translate_eq {b : Nat} (printf : Heap W → Option (Heap W)) (inside : b < h.chain.length)
    (last : h.kLastAlloc.toNat = kHeapBottom.toNat + (sizes h.chain).sum) :
    ∃ start, translate printf b h = some (start, h) ∧
      start.toNat = kHeapBottom.toNat + offset (sizes h.chain) b := by
  have before : offset (sizes h.chain) b ≤ (sizes h.chain).sum := by
    rw [← offset_length]
    exact offset_mono (by simpa using Nat.le_of_lt inside)
  have address : (kHeapBottom + sizeBefore h.chain b).toNat =
      kHeapBottom.toNat + offset (sizes h.chain) b := by
    rw [toNat_add, toNat_sizeBefore (by omega), Nat.mod_eq_of_lt (by omega)]
  refine ⟨kHeapBottom + sizeBefore h.chain b, ?_, address⟩
  rw [translate, if_neg (by omega)]
  rw [if_neg (by rw [lt_def]; omega)]

/-- An entry holds an address exactly when its segment of the heap covers it. -/
theorem blockHolds_iff {b : Nat} {p : U32} (printf : Heap W → Option (Heap W))
    (inside : b < h.chain.length)
    (last : h.kLastAlloc.toNat = kHeapBottom.toNat + (sizes h.chain).sum)
    (bottom : kHeapBottom.toNat ≤ p.toNat) :
    BlockHolds printf h b p ↔ Covers (sizes h.chain) b (p.toNat - kHeapBottom.toNat) := by
  obtain ⟨start, translated, address⟩ := translate_eq printf inside last
  have inSizes : b < (sizes h.chain).length := by simpa using inside
  have size : entrySize h.chain b = (sizes h.chain)[b] := (getElem_sizes inSizes).symm
  constructor
  · rintro ⟨start', translated', low, high⟩
    rw [translated, Option.some.injEq, Prod.mk.injEq] at translated'
    rw [← translated'.1] at low high
    exact ⟨inSizes, by omega, by omega⟩
  · rintro ⟨_, low, high⟩
    exact ⟨start, translated, by omega, by omega⟩

/-- For a chain whose sizes add up, without wrapping, to the end of the heap, `find_block`
of an address in the heap is the one entry that holds it, and `find_block` of the address
of an entry that is not empty is that entry. -/
theorem find_block_inverts_translate (printf : Heap W → Option (Heap W))
    (last : h.kLastAlloc.toNat = kHeapBottom.toNat + (sizes h.chain).sum) :
    (∀ p : U32, kHeapBottom.toNat ≤ p.toNat → p.toNat < h.kLastAlloc.toNat →
      ∃ b < h.chain.length, findBlock p h = .entry b ∧
        ∀ j < h.chain.length, BlockHolds printf h j p ↔ j = b) ∧
    ∀ b < h.chain.length, entrySize h.chain b ≠ 0 →
      ∃ start, translate printf b h = some (start, h) ∧ findBlock start h = .entry b := by
  constructor
  · intro p bottom top
    have within : p.toNat - kHeapBottom.toNat < (sizes h.chain).sum := by omega
    obtain ⟨b, covers⟩ := exists_covers within
    have inside : b < h.chain.length := by simpa using covers.1
    refine ⟨b, inside, findBlock_of_covers last covers (by omega), fun j inChain => ?_⟩
    rw [blockHolds_iff printf inChain last bottom]
    exact ⟨fun other => other.unique covers, fun same => same ▸ covers⟩
  · intro b inside nonzero
    obtain ⟨start, translated, address⟩ := translate_eq printf inside last
    have inSizes : b < (sizes h.chain).length := by simpa using inside
    have positive : 0 < (sizes h.chain)[b] := by
      rw [getElem_sizes inSizes]
      exact Nat.pos_of_ne_zero nonzero
    exact ⟨start, translated, findBlock_of_covers last (covers_offset inSizes positive) address⟩

/-- A heap of a used block, an empty one and a free one. -/
def threeBlocks : Heap Unit :=
  ⟨[0x80000010#32, 0#32, 0x20#32], 0xC0301000#32, 0xC0300030#32, false, [], ()⟩

theorem three_blocks_inverse : findBlock 0xC0300018#32 threeBlocks = .entry 2 ∧
    ∃ start, translate some 2 threeBlocks = some (start, threeBlocks) ∧
      findBlock start threeBlocks = .entry 2 := by
  have inverse := find_block_inverts_translate (h := threeBlocks) some (by decide)
  exact ⟨rfl, inverse.2 2 (by decide) (by decide)⟩

end Addresses

end Crunchy
