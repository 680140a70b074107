/-
Module: Crunchy.Proofs.PageSweep
Purpose: Runs of the page allocator without frees. They hand out physical memory
  in order, region after region, and report that there is none left from the end
  of the last region on.
Trusted boundary: none
Main exports: sweepSystem, sweptPage, SweptTo, page_allocations_sweep
-/
import Crunchy.Proofs.PageAllocator

namespace Crunchy

open Lib BitVec Option List

variable {after mm : Mm} {first heap heapMax : U32}

/-- The allocator and the values `k_page_alloc` has returned, oldest first. -/
structure SweepRun where
  mm : Mm
  pages : List U32

/-- What happens in a run without frees: a page is asked for, or other code takes
memory from `mm_alloc`. -/
inductive SweepEvent where
  | pageAlloc
  | mmAlloc (n : U32)

/-- One call. A page allocation that needs a bitmap has one only where `mm_alloc`
supplies it. -/
inductive SweepStep : SweepRun → SweepEvent → SweepRun → Prop where
  | pageAlloc {run : SweepRun} {a : U32} {after : Mm}
      (returned : kPageAlloc run.mm = some (a, after)) :
      SweepStep run .pageAlloc { mm := after, pages := run.pages ++ [a] }
  | mmAlloc {run : SweepRun} (n : U32) :
      SweepStep run (.mmAlloc n) { run with mm := (mmAlloc n run.mm).2 }

/-- Runs without frees from `k_mm_init`, whose own page is number 0. -/
def sweepSystem : System SweepRun SweepEvent where
  Start run := ∃ heap heapMax first, kMmInit heap heapMax = some (first, run.mm) ∧
    run.pages = [first]
  Step := SweepStep

/-- The page that allocation number `k` is due. -/
def sweptPage (k : Nat) : U32 :=
  if k < 1023 * 1024 then 0x400000#32 + BitVec.ofNat 32 k * 0x1000#32 else errNoMem

theorem sweptPage_eq_pageAddress {region index : Nat} (inside : index < 1024)
    (room : region < 1023) :
    sweptPage (region * 1024 + index) = pageAddress (region + 1) index := by
  rw [sweptPage, if_pos (by omega)]
  apply eq_of_toNat_eq
  rw [toNat_pageAddress (by omega) inside]
  simp only [toNat_add, toNat_mul, toNat_ofNat]
  omega

theorem sweptPage_exhausted {k : Nat} (past : 1023 * 1024 ≤ k) : sweptPage k = errNoMem :=
  if_neg (Nat.not_lt.mpr past)

/-- Where the allocator stands after `count` allocations: inside a region, whose
first pages are taken, or past the last one. -/
inductive SweptTo (mm : Mm) : Nat → Prop where
  | inside {region k count : Nat} (stand : count = region * 1024 + k) (room : region < 1023)
      (positive : 1 ≤ k) (upTo : k ≤ 1024) (swept : Swept mm (region + 1) k) : SweptTo mm count
  | past {count : Nat} (all : 1023 * 1024 < count) (current : CurrentRegion mm 1024) :
      SweptTo mm count

/-! ### What an allocation takes from `mm_alloc` -/

/-- The words `mm_alloc(n)` moves `MM_HEAP` by. -/
def mmAdvance (n : U32) : U32 :=
  if 0x1000#32 ≤ n then n &&& ~~~0xFFF#32 else 0x1000#32

/-- Everything `mm_alloc` can do: refuse, or hand out what lies at `MM_HEAP`. -/
theorem mmAlloc_cases (n : U32) (mm : Mm) :
    mmAlloc n mm = (null, mm) ∨
    (mm.mmHeap ≠ null ∧ mm.mmHeap + 4 * n < mm.mmHeapMax ∧
      mmAlloc n mm = (mm.mmHeap, { mm with mmHeap := mm.mmHeap + 4 * mmAdvance n })) := by
  rw [mmAlloc]
  split
  · exact Or.inl rfl
  · rename_i heapSet
    split
    · rename_i room
      refine Or.inr ⟨heapSet, room, ?_⟩
      rw [mmAdvance]
      split <;> rfl
    · exact Or.inl rfl

/-- A bitmap moves the unfreeable heap by four pages. -/
theorem mmBitmapInit_heap {b : Words 32} (fresh : mmBitmapInit mm = some (b, after)) :
    after.mmHeap = mm.mmHeap + 0x4000#32 ∧ after.mmHeapMax = mm.mmHeapMax ∧
      mmAlloc (4 * 32) mm = (mm.mmHeap, after) ∧ mm.mmHeap ≠ null := by
  rw [mmBitmapInit] at fresh
  rcases mmAlloc_cases (4 * 32) mm with refused | ⟨heapSet, _, served⟩
  · simp only [refused, if_true] at fresh
    cases fresh
  · simp only [served, if_neg heapSet] at fresh
    cases fresh
    exact ⟨rfl, rfl, served, heapSet⟩

theorem mmBitmapInit_supplied (heapSet : mm.mmHeap ≠ 0#32)
    (room : mm.mmHeap.toNat + 512 < mm.mmHeapMax.toNat) :
    ∃ after, mmBitmapInit mm = some (fun _ => 0#32, after) := by
  apply mmBitmapInit_of_room heapSet
  have sum : (mm.mmHeap + 4 * (4 * 32)).toNat = mm.mmHeap.toNat + 512 :=
    toNat_add_ofNat (n := 512) (by omega)
  rw [lt_def, sum]
  exact room

private theorem zeroed_firstFree_ne : mmFirstFree (fun _ => 0#32 : Words 32) ≠ errNoMem := by
  rw [mmFirstFree_eq_ofNat (k := 0) (by decide) (by simp) (by simp)]
  decide

/-- With the bitmap it may need, a page allocation returns; it leaves `mm_alloc`
where taking that bitmap left it. -/
theorem kPageAlloc_swapping {middle : Mm} {pt : Words 32} (swaps : SwapsBitmap mm)
    (fresh : mmBitmapInit mm = some (pt, middle)) :
    ∃ a after, kPageAlloc mm = some (a, after) ∧ after.mmHeap = middle.mmHeap ∧
      after.mmHeapMax = middle.mmHeapMax := by
  obtain ⟨rfl, _, _⟩ := mmBitmapInit_spec fresh
  rw [SwapsBitmap] at swaps
  have notBoth : ¬(mmFirstFree mm.mmCurrentPd ≠ errNoMem ∧
      mmFirstFree mm.mmCurrentPt ≠ errNoMem) := fun both => both.2 swaps.2
  rw [kPageAlloc, mmPageAlloc, mmPageAllocDepth]
  simp only [fresh]
  rw [if_neg notBoth, if_pos swaps, mmPageAllocDepth]
  -- the inner call finds the new bitmap empty
  simp only
  split
  · exact ⟨_, _, rfl, rfl, rfl⟩
  · rw [if_neg fun inner => zeroed_firstFree_ne inner.2]
    exact ⟨_, _, rfl, rfl, rfl⟩

/-- An allocation inside the region, or past the last one, takes nothing. -/
theorem kPageAlloc_staying (stays : ¬SwapsBitmap mm) :
    ∃ a after, kPageAlloc mm = some (a, after) ∧ after.mmHeap = mm.mmHeap ∧
      after.mmHeapMax = mm.mmHeapMax := by
  rw [SwapsBitmap] at stays
  rw [kPageAlloc, mmPageAlloc, mmPageAllocDepth]
  simp only [if_neg stays]
  split <;> exact ⟨_, _, rfl, rfl, rfl⟩

/-- A page allocation returns where `mm_alloc` supplies a bitmap. -/
theorem kPageAlloc_of_bitmap (supplied : mmBitmapInit mm ≠ none) :
    ∃ a after, kPageAlloc mm = some (a, after) := by
  by_cases swaps : SwapsBitmap mm
  · obtain ⟨⟨pt, middle⟩, fresh⟩ := ne_none_iff_exists'.mp supplied
    obtain ⟨a, after, returned, _⟩ := kPageAlloc_swapping swaps fresh
    exact ⟨a, after, returned⟩
  · obtain ⟨a, after, returned, _⟩ := kPageAlloc_staying swaps
    exact ⟨a, after, returned⟩

/-- What a page allocation that returned has taken from `mm_alloc`: a bitmap, where
it needed one, and else nothing. -/
theorem kPageAlloc_heap {a : U32} (returned : kPageAlloc mm = some (a, after)) :
    after.mmHeapMax = mm.mmHeapMax ∧ after.mmHeap =
      if SwapsBitmap mm then (mmAlloc (4 * 32) mm).2.mmHeap else mm.mmHeap := by
  by_cases swaps : SwapsBitmap mm
  · rw [if_pos swaps]
    cases fresh : mmBitmapInit mm with
    | none =>
      rw [SwapsBitmap] at swaps
      rw [kPageAlloc, mmPageAlloc, mmPageAllocDepth] at returned
      simp only [fresh, if_pos swaps] at returned
      rw [if_neg fun both => both.2 swaps.2] at returned
      cases returned
    | some result =>
      obtain ⟨pt, middle⟩ := result
      obtain ⟨_, _, again, heap, heapMax⟩ := kPageAlloc_swapping swaps fresh
      obtain ⟨_, sameMax, served, _⟩ := mmBitmapInit_heap fresh
      cases again.symm.trans returned
      rw [served]
      exact ⟨heapMax.trans sameMax, heap⟩
  · rw [if_neg swaps]
    obtain ⟨_, _, again, heap, heapMax⟩ := kPageAlloc_staying swaps
    cases again.symm.trans returned
    exact ⟨heapMax, heap⟩

/-- `k_mm_init` takes two bitmaps, and the page it keeps needs no third. -/
theorem kMmInit_heap (init : kMmInit heap heapMax = some (first, mm)) :
    mm.mmHeap = (mmAlloc (4 * 32) (mmAlloc (4 * 32) (mmBare heap heapMax)).2).2.mmHeap ∧
      mm.mmHeapMax = heapMax := by
  rw [kMmInit] at init
  obtain ⟨⟨pd, one⟩, freshPd, init⟩ := bind_eq_some_iff.mp init
  obtain ⟨⟨pt, two⟩, freshPt, init⟩ := bind_eq_some_iff.mp init
  obtain ⟨_, maxOne, servedOne, _⟩ := mmBitmapInit_heap freshPd
  obtain ⟨_, maxTwo, servedTwo, _⟩ := mmBitmapInit_heap freshPt
  have stays : ¬SwapsBitmap
      { two with mmCurrentPd := mmBitmapSetBit pd 0#32, mmCurrentPt := pt } := by
    rw [(mmBitmapInit_spec freshPt).1]
    exact fun swaps => zeroed_firstFree_ne swaps.2
  obtain ⟨a, after, returned, sameHeap, sameMax⟩ := kPageAlloc_staying stays
  cases returned.symm.trans init
  have servedOne : mmAlloc (4 * 32) (mmBare heap heapMax) = _ := servedOne
  exact ⟨by rw [sameHeap, servedOne, servedTwo], by rw [sameMax, maxTwo, maxOne]⟩

/-! ### The sweep -/

namespace SweptTo

variable {mm after : Mm} {count : Nat} {a : U32}

theorem start (init : kMmInit heap heapMax = some (first, mm)) :
    first = sweptPage 0 ∧ SweptTo mm 1 := by
  obtain ⟨current, isFirst, table⟩ := kMmInit_spec init
  have swept : Swept mm (0 + 1) 1 := by
    refine ⟨current, fun i inside => ?_⟩
    simp only [table, mem_mmBitmapSetBit, Words.mem_zero, Bool.or_false, toNat_ofNat]
    exact decide_eq_decide.mpr (by omega)
  exact ⟨isFirst, .inside rfl (by decide) (Nat.le_refl _) (by decide) swept⟩

/-- Other users of `mm_alloc` do not move the sweep. -/
theorem mmAlloc (swept : SweptTo mm count) (n : U32) : SweptTo (mmAlloc n mm).2 count := by
  obtain ⟨samePd, samePt⟩ := mmAlloc_bitmaps n mm
  cases swept with
  | inside stand room positive upTo swept =>
    exact .inside stand room positive upTo
      ⟨⟨swept.current.bound, by rw [samePd]; exact swept.current.full⟩,
        by rw [samePt]; exact swept.table⟩
  | past all current => exact .past all ⟨current.bound, by rw [samePd]; exact current.full⟩

/-- The next allocation returns the page it is due. -/
theorem pageAlloc (swept : SweptTo mm count) (returned : kPageAlloc mm = some (a, after)) :
    a = sweptPage count ∧ SweptTo after (count + 1) := by
  cases swept with
  | past all current =>
    rcases kPageAlloc_cases current returned with
      ⟨_, _, room, _⟩ | ⟨room, _⟩ | ⟨last, _⟩ | ⟨_, isErr, rfl⟩
    · exact absurd room (by decide)
    · exact absurd room (by decide)
    · exact absurd last (by decide)
    · exact ⟨isErr.trans (sweptPage_exhausted (Nat.le_of_lt all)).symm,
        .past (Nat.lt_succ_of_lt all) current⟩
  | @inside region k _ stand room positive upTo swept =>
    subst stand
    rcases Nat.lt_or_eq_of_le upTo with free | rfl
    · -- a page of this region is left
      obtain ⟨next, isPage, further, _, _⟩ := swept.alloc (by omega) free
      cases returned.symm.trans isPage
      exact ⟨(sweptPage_eq_pageAddress free room).symm,
        .inside (Nat.add_assoc _ _ _) room (Nat.le_add_left _ _) free further⟩
    · -- the region is full
      rcases kPageAlloc_cases swept.current returned with
        ⟨k, inside, _, clear, _⟩ | ⟨nextRoom, _, isPage, moved, table⟩ |
        ⟨last, _, isErr, moved, _⟩ | ⟨beyond, _⟩
      · rw [swept.table k inside, decide_eq_false_iff_not] at clear
        exact absurd inside clear
      · have due : region * 1024 + 1024 = (region + 1) * 1024 + 0 := by omega
        have next : Swept after (region + 1 + 1) 1 := by
          refine ⟨moved, fun i inside => ?_⟩
          simp only [table, mem_mmBitmapSetBit, Words.mem_zero, Bool.or_false, toNat_ofNat]
          exact decide_eq_decide.mpr (by omega)
        have stand : region * 1024 + 1024 + 1 = (region + 1) * 1024 + 1 := by
          rw [Nat.succ_mul]
        have roomLeft : region + 1 < 1023 := by omega
        refine ⟨?_, .inside stand roomLeft (Nat.le_refl _) (by decide) next⟩
        rw [due, sweptPage_eq_pageAddress (by decide) (by omega)]
        exact isPage
      · have due : region * 1024 + 1024 = 1023 * 1024 := by omega
        rw [due]
        exact ⟨isErr.trans (sweptPage_exhausted (Nat.le_refl _)).symm,
          .past (Nat.lt_succ_self _) moved⟩
      · omega

/-- Every run without frees has handed out the pages that were due. -/
theorem of_reachable {run : SweepRun} (reached : sweepSystem.Reachable run) :
    run.pages = (List.range run.pages.length).map sweptPage ∧ SweptTo run.mm run.pages.length := by
  refine reached.invariant (fun run =>
    run.pages = (List.range run.pages.length).map sweptPage ∧ SweptTo run.mm run.pages.length) ?_ ?_
  · rintro run ⟨heap, heapMax, first, init, isFirst⟩
    obtain ⟨page, swept⟩ := start init
    rw [isFirst]
    exact ⟨by simp [page], swept⟩
  · intro before event next ⟨inOrder, swept⟩ taken
    change SweepStep before event next at taken
    cases taken with
    | pageAlloc returned =>
      obtain ⟨page, further⟩ := swept.pageAlloc returned
      refine ⟨?_, by simpa using further⟩
      simp only [length_append, length_singleton, range_succ, map_append,
        map_singleton, page, ← inOrder]
    | mmAlloc n => exact ⟨inOrder, swept.mmAlloc n⟩

end SweptTo

/-- Runs without frees sweep physical memory: allocation number `k` has returned
the page at `0x400000 + k * 0x1000` for every `k` below `1023 * 1024` and
`ERR_NO_MEM` from there on, and while `mm_alloc` supplies bitmaps the next
allocation returns too. -/
theorem page_allocations_sweep {run : SweepRun} (reached : sweepSystem.Reachable run) :
    (∀ k, (inside : k < run.pages.length) → run.pages[k] =
      if k < 1023 * 1024 then 0x400000#32 + BitVec.ofNat 32 k * 0x1000#32 else errNoMem) ∧
    (mmBitmapInit run.mm ≠ none → ∃ after, kPageAlloc run.mm = some
      (if run.pages.length < 1023 * 1024 then
          0x400000#32 + BitVec.ofNat 32 run.pages.length * 0x1000#32
        else errNoMem, after)) := by
  obtain ⟨inOrder, swept⟩ := SweptTo.of_reachable reached
  constructor
  · intro k inside
    have due : run.pages[k]? = some (sweptPage k) := by
      rw [inOrder, List.getElem?_map, List.getElem?_range (by simpa using inside)]
      rfl
    rw [List.getElem?_eq_getElem inside] at due
    exact Option.some.inj due
  · intro supplied
    obtain ⟨a, after, returned⟩ := kPageAlloc_of_bitmap supplied
    obtain ⟨rfl, _⟩ := swept.pageAlloc returned
    exact ⟨after, returned⟩

/-! ### Whole sweeps

With a heap limit high enough for a bitmap a region, a run gets to the end of
memory. -/

/-- A bitmap is due at the end of each region. -/
theorem SweptTo.swapsBitmap_iff {count : Nat} (swept : SweptTo mm count)
    (upTo : count ≤ 1023 * 1024) : SwapsBitmap mm ↔ count % 1024 = 0 := by
  cases swept with
  | past all _ => exact absurd all (Nat.not_lt.mpr upTo)
  | @inside region k _ stand room positive bound swept =>
    have found : mmFirstFree mm.mmCurrentPd ≠ errNoMem := by
      rw [swept.current.firstFree (by omega)]
      exact ofNat_ne_errNoMem (by omega)
    rcases Nat.lt_or_eq_of_le bound with free | rfl
    · have first : mmFirstFree mm.mmCurrentPt = BitVec.ofNat 32 k := by
        refine mmFirstFree_eq_ofNat free ?_ fun j below => ?_
        · rw [swept.table k free]
          simp
        · rw [swept.table j (Nat.lt_trans below free)]
          simp [below]
      have notErr := ofNat_ne_errNoMem free
      rw [SwapsBitmap, first]
      constructor
      · exact fun swaps => absurd swaps.2 notErr
      · omega
    · have full : mmFirstFree mm.mmCurrentPt = errNoMem := by
        apply mmFirstFree_eq_errNoMem
        intro j inside
        rw [swept.table j inside]
        simp [inside]
      exact iff_of_true ⟨found, full⟩ (by omega)

/-- From a boot with the heap limit at the top of memory, every allocation up to
the first refused one has its bitmap. -/
theorem sweep_reaches (count : Nat) (upTo : count ≤ 1023 * 1024) : ∃ run : SweepRun,
    sweepSystem.Reachable run ∧ run.pages.length = count + 1 ∧
      run.mm.mmHeap.toNat = 0xC0109000 + 0x4000 * (count / 1024) ∧
      run.mm.mmHeapMax = 0xFFFFF000#32 := by
  induction count with
  | zero =>
    obtain ⟨result, init⟩ := isSome_iff_exists.mp
      (show (kMmInit 0xC0100000#32 0xFFFFF000#32).isSome = true by decide +kernel)
    obtain ⟨heap, heapMax⟩ := kMmInit_heap init
    refine ⟨{ mm := result.2, pages := [result.1] }, .start ⟨_, _, _, init, rfl⟩, rfl, ?_,
      heapMax⟩
    simp only [heap]
    decide
  | succ count ih =>
    obtain ⟨run, reached, length, heap, heapMax⟩ := ih (by omega)
    have swept := (SweptTo.of_reachable reached).2
    rw [length] at swept
    have limit : run.mm.mmHeapMax.toNat = 0xFFFFF000 := by rw [heapMax]; rfl
    by_cases swaps : SwapsBitmap run.mm
    · have whole := (swept.swapsBitmap_iff upTo).mp swaps
      have heapSet : run.mm.mmHeap ≠ 0#32 := by
        intro zero
        rw [zero, toNat_ofNat] at heap
        omega
      obtain ⟨middle, fresh⟩ := mmBitmapInit_supplied heapSet (by omega)
      obtain ⟨moved, sameMax, _⟩ := mmBitmapInit_heap fresh
      obtain ⟨a, after, returned, heapAfter, maxAfter⟩ := kPageAlloc_swapping swaps fresh
      refine ⟨_, reached.step (SweepStep.pageAlloc returned), by simp [length], ?_,
        maxAfter.trans (sameMax.trans heapMax)⟩
      simp only [heapAfter, moved]
      rw [toNat_add_ofNat (by omega)]
      omega
    · have within : ¬(count + 1) % 1024 = 0 := fun whole =>
        swaps ((swept.swapsBitmap_iff upTo).mpr whole)
      obtain ⟨a, after, returned, heapAfter, maxAfter⟩ := kPageAlloc_staying swaps
      refine ⟨_, reached.step (SweepStep.pageAlloc returned), by simp [length], ?_,
        maxAfter.trans heapMax⟩
      rw [heapAfter]
      omega

/-- A run that has swept all of memory: its last page, the refusal after it, and
the refusal to come. -/
theorem whole_memory_swept : ∃ run : SweepRun, sweepSystem.Reachable run ∧
    run.pages[1023 * 1024 - 1]? = some 0xFFFFF000#32 ∧
    run.pages[1023 * 1024]? = some errNoMem ∧
    ∃ after, kPageAlloc run.mm = some (errNoMem, after) := by
  obtain ⟨run, reached, length, heap, heapMax⟩ := sweep_reaches (1023 * 1024) (Nat.le_refl _)
  obtain ⟨swept, next⟩ := page_allocations_sweep reached
  have heapSet : run.mm.mmHeap ≠ 0#32 := by
    intro zero
    rw [zero, BitVec.toNat_ofNat] at heap
    omega
  have limit : run.mm.mmHeapMax.toNat = 0xFFFFF000 := by
    rw [heapMax]
    rfl
  obtain ⟨middle, fresh⟩ := mmBitmapInit_supplied heapSet (by omega)
  refine ⟨run, reached, ?_, ?_, ?_⟩
  · rw [List.getElem?_eq_getElem (by omega), swept _ (by omega), if_pos (by omega)]
    rfl
  · rw [List.getElem?_eq_getElem (by omega), swept _ (by omega), if_neg (by omega)]
  · obtain ⟨after, returned⟩ := next (by rw [fresh]; exact Option.some_ne_none _)
    rw [if_neg (by omega)] at returned
    exact ⟨after, returned⟩

end Crunchy
