/-
Module: Crunchy.Mem.Mm
Purpose: The physical memory manager of `kernel/mem/mm.c`: the unfreeable
  `mm_alloc` heap and the page allocator that keeps one directory bitmap and the
  bitmap of one 4 MB region.
Trusted boundary: human-reviewed spec
Main exports: Mm, mmAlloc, mmFirstFree, mmPageAlloc, mmPageFree, kPageAlloc,
  SwapsBitmap, kPageFree, kMmInit
-/
import Crunchy.Types
import Crunchy.Lib.BitWords

namespace Crunchy

open Lib

/-- `ERR_NO_MEM`, the `int` `-1` as the unsigned words it is compared with. -/
def errNoMem : U32 := 0xFFFFFFFF#32

/-- The globals of `mm.c`. A bitmap is the words its pointer points to: every
bitmap lies in memory of its own, since `mm_alloc` never hands memory out twice
and nothing else writes there. -/
structure Mm where
  mmHeap : U32
  mmHeapMax : U32
  mmCurrentPd : Words 32
  mmCurrentPt : Words 32

/-- `mm_alloc(n)`. `MM_HEAP` is a `uint32_t*`, so adding `n` to it moves it by
`4 * n` bytes, in the limit check and in both increments. -/
def mmAlloc (n : U32) (mm : Mm) : U32 × Mm :=
  if mm.mmHeap = 0#32 then (null, mm)
  else if mm.mmHeap + 4 * n < mm.mmHeapMax then
    let addr := mm.mmHeap
    if 0x1000#32 ≤ n then
      (addr, { mm with mmHeap := mm.mmHeap + 4 * (n &&& ~~~0xFFF#32) })
    else
      (addr, { mm with mmHeap := mm.mmHeap + 4 * 0x1000#32 })
  else (null, mm)

/-- `mm_bitmap_set_bit(b, bit)`. -/
def mmBitmapSetBit (b : Words 32) (bit : U32) : Words 32 :=
  b.insert bit.toNat

/-- `mm_bitmap_unset_bit(b, bit)`. -/
def mmBitmapUnsetBit (b : Words 32) (bit : U32) : Words 32 :=
  b.erase bit.toNat

/-- `mm_first_free(b)`: the first zero bit of the 32 words, or `ERR_NO_MEM`. -/
def mmFirstFree (b : Words 32) : U32 :=
  match b.firstClear 32 with
  | some bit => BitVec.ofNat 32 bit
  | none => errNoMem

/-- `mm_bitmap_init()`: a zeroed bitmap from the unfreeable heap. `none` when
`mm_alloc` has run out, where the source clears memory through `NULL`. -/
def mmBitmapInit (mm : Mm) : Option (Words 32 × Mm) :=
  let (b, mm) := mmAlloc (4 * 32) mm
  if b = null then none else some (fun _ => 0#32, mm)

/-- `mm_page_free(PD, PT, address)` on the current bitmaps. The region index the
source computes is not used: the bit is cleared in whatever region is current. -/
def mmPageFree (address : U32) (mm : Mm) : U32 × Mm :=
  let aligned := address &&& ~~~0x3FF#32
  let ptIndex := (aligned >>> 12) &&& 0x3FF#32
  (address, { mm with mmCurrentPt := mmBitmapUnsetBit mm.mmCurrentPt ptIndex })

/-- `mm_page_alloc(PD, PT)` on the current bitmaps, with a bound on how deep it
calls itself. The value of the inner call is the value returned. -/
def mmPageAllocDepth : Nat → Mm → Option (U32 × Mm)
  | 0, _ => none
  | depth + 1, mm =>
    let ffPd := mmFirstFree mm.mmCurrentPd
    let ffPt := mmFirstFree mm.mmCurrentPt
    if ffPd ≠ errNoMem ∧ ffPt ≠ errNoMem then
      let address := ffPd * 0x1000#32 * 0x400#32 + ffPt * 0x1000#32
      some (address, { mm with mmCurrentPt := mmBitmapSetBit mm.mmCurrentPt ffPt })
    else if ffPd ≠ errNoMem ∧ ffPt = errNoMem then
      -- the region is full: a fresh bitmap takes the place of the full one
      match mmBitmapInit mm with
      | none => none
      | some (pt, mm) =>
        mmPageAllocDepth depth
          { mm with
            mmCurrentPt := pt
            mmCurrentPd := mmBitmapSetBit mm.mmCurrentPd ffPd }
    else some (errNoMem, mm)

/-- `mm_page_alloc`. A fresh bitmap has a free bit, so the inner call does not
call itself again (`mmPageAllocDepth_eq`). -/
def mmPageAlloc (mm : Mm) : Option (U32 × Mm) :=
  mmPageAllocDepth 2 mm

/-- `k_page_alloc()`. -/
def kPageAlloc (mm : Mm) : Option (U32 × Mm) :=
  mmPageAlloc mm

/-- The current region is full and is not the end: `mm_page_alloc` takes a new
bitmap from `mm_alloc`. -/
def SwapsBitmap (mm : Mm) : Prop :=
  mmFirstFree mm.mmCurrentPd ≠ errNoMem ∧ mmFirstFree mm.mmCurrentPt = errNoMem

instance (mm : Mm) : Decidable (SwapsBitmap mm) :=
  inferInstanceAs (Decidable (_ ∧ _))

/-- `k_page_free(addr)`. -/
def kPageFree (addr : U32) (mm : Mm) : U32 × Mm :=
  mmPageFree addr mm

/-- `k_mm_init(heap)`, where `heapMax` is the value the global `MM_HEAP_MAX`
has (`0xC0300000` in the source). -/
def kMmInit (heap heapMax : U32) : Option (U32 × Mm) := do
  let heap := (heap + 0x1000#32) &&& ~~~0xFFF#32
  let (pd, mm) ← mmBitmapInit
    { mmHeap := heap
      mmHeapMax := heapMax
      mmCurrentPd := fun _ => 0#32
      mmCurrentPt := fun _ => 0#32 }
  let (pt, mm) ← mmBitmapInit mm
  mmPageAlloc
    { mm with
      mmCurrentPd := mmBitmapSetBit pd 0#32
      mmCurrentPt := pt }

/-- The globals in `k_mm_init` once `MM_HEAP` is set, before the first bitmap. -/
def mmBare (heap heapMax : U32) : Mm where
  mmHeap := (heap + 0x1000#32) &&& ~~~0xFFF#32
  mmHeapMax := heapMax
  mmCurrentPd := fun _ => 0#32
  mmCurrentPt := fun _ => 0#32

/-! ### The bitmaps as sets of page indices -/

/-- The first free bit of a bitmap is a bit index or the error value, and the
two are told apart. -/
theorem mmFirstFree_cases (b : Words 32) :
    (∃ k < 1024, b.mem k = false ∧ (∀ j < k, b.mem j = true) ∧
      mmFirstFree b = BitVec.ofNat 32 k ∧ mmFirstFree b ≠ errNoMem) ∨
    ((∀ k < 1024, b.mem k = true) ∧ mmFirstFree b = errNoMem) := by
  cases scan : b.firstClear 32 with
  | none =>
    refine Or.inr ⟨fun k inside => Words.firstClear_eq_none_iff.mp scan k inside, ?_⟩
    simp [mmFirstFree, scan]
  | some k =>
    obtain ⟨inside, clear, below⟩ := Words.firstClear_eq_some_iff.mp scan
    refine Or.inl ⟨k, inside, clear, below, by simp [mmFirstFree, scan], ?_⟩
    simp only [mmFirstFree, scan, errNoMem]
    intro equal
    have value := congrArg BitVec.toNat equal
    simp only [BitVec.toNat_ofNat] at value
    omega

theorem mmFirstFree_eq_ofNat {b : Words 32} {k : Nat} (inside : k < 1024)
    (clear : b.mem k = false) (below : ∀ j < k, b.mem j = true) :
    mmFirstFree b = BitVec.ofNat 32 k := by
  have scan : b.firstClear 32 = some k :=
    Words.firstClear_eq_some_iff.mpr ⟨inside, clear, below⟩
  simp [mmFirstFree, scan]

theorem mmFirstFree_eq_errNoMem {b : Words 32} (full : ∀ k < 1024, b.mem k = true) :
    mmFirstFree b = errNoMem := by
  have scan : b.firstClear 32 = none := Words.firstClear_eq_none_iff.mpr full
  simp [mmFirstFree, scan]

@[simp] theorem mem_mmBitmapSetBit (b : Words 32) (bit : U32) (k : Nat) :
    (mmBitmapSetBit b bit).mem k = (decide (k = bit.toNat) || b.mem k) :=
  b.mem_insert bit.toNat k (by decide)

@[simp] theorem mem_mmBitmapUnsetBit (b : Words 32) (bit : U32) (k : Nat) :
    (mmBitmapUnsetBit b bit).mem k = (decide (k ≠ bit.toNat) && b.mem k) :=
  b.mem_erase bit.toNat k (by decide)

theorem mmAlloc_bitmaps (n : U32) (mm : Mm) :
    (mmAlloc n mm).2.mmCurrentPd = mm.mmCurrentPd ∧
      (mmAlloc n mm).2.mmCurrentPt = mm.mmCurrentPt := by
  -- for any new break: with the break written out, checking `rfl` compares the breaks first
  have moved : ∀ heap, { mm with mmHeap := heap }.mmCurrentPd = mm.mmCurrentPd ∧
      { mm with mmHeap := heap }.mmCurrentPt = mm.mmCurrentPt := fun _ => ⟨rfl, rfl⟩
  unfold mmAlloc
  split
  · exact ⟨rfl, rfl⟩
  · split
    · dsimp only
      split <;> exact moved _
    · exact ⟨rfl, rfl⟩

/-- A zeroed bitmap comes from `mm_alloc` alone: the bitmaps in use stay. -/
theorem mmBitmapInit_spec {mm after : Mm} {b : Words 32}
    (fresh : mmBitmapInit mm = some (b, after)) :
    b = (fun _ => 0#32) ∧ after.mmCurrentPd = mm.mmCurrentPd ∧
      after.mmCurrentPt = mm.mmCurrentPt := by
  simp only [mmBitmapInit] at fresh
  split at fresh
  · cases fresh
  · cases fresh
    exact ⟨rfl, mmAlloc_bitmaps _ mm⟩

/-- `mm_alloc` supplies a bitmap while 512 more bytes stay below the limit. -/
theorem mmBitmapInit_of_room {mm : Mm} (heapSet : mm.mmHeap ≠ 0#32)
    (room : mm.mmHeap + 4 * (4 * 32) < mm.mmHeapMax) :
    ∃ after, mmBitmapInit mm = some (fun _ => 0#32, after) := by
  have small : ¬ (0x1000#32 : U32) ≤ 4 * 32 := by decide
  refine ⟨{ mm with mmHeap := mm.mmHeap + 4 * 0x1000#32 }, ?_⟩
  simp only [mmBitmapInit, mmAlloc, if_neg heapSet, if_pos room, if_neg small]
  exact if_neg heapSet

/-- After a swap the bitmap is empty, so the inner call goes no deeper. -/
theorem mmPageAllocDepth_eq (depth : Nat) (mm : Mm) :
    mmPageAllocDepth (depth + 2) mm = mmPageAlloc mm := by
  have leaf : ∀ d next, next.mmCurrentPt = (fun _ => 0#32) →
      mmPageAllocDepth (d + 1) next = mmPageAllocDepth 1 next := by
    intro d next empty
    have free : mmFirstFree next.mmCurrentPt = 0#32 := by
      rw [empty]
      exact mmFirstFree_eq_ofNat (by decide) (by simp) (by simp)
    simp [mmPageAllocDepth, free, show (0#32 : U32) ≠ errNoMem by decide]
  rw [mmPageAlloc, mmPageAllocDepth, mmPageAllocDepth]
  cases swap : mmBitmapInit mm with
  | none => rfl
  | some result =>
    have empty := (mmBitmapInit_spec swap).1
    simp (disch := exact empty) only [leaf depth]

end Crunchy
