/-
Module: Crunchy.Proofs.PageAllocator
Purpose: Runs of the physical page allocator. What one call can do is said once
  (`kPageAlloc_cases`) and the safety of whole runs is derived from it.
Trusted boundary: none
Main exports: pageSystem, FreesOwnRegion, page_never_handed_out_twice
-/
import Crunchy.Mem.Mm
import Crunchy.Lib.Transition

namespace Crunchy

open Lib

variable {middle mm : Mm} {index k region : Nat} {a p : U32} {pt : Words 32}

/-! ### Pages and regions -/

/-- The address of page `index` of the 4 MB region `region`. -/
def pageAddress (region index : Nat) : U32 :=
  BitVec.ofNat 32 (region * 0x400000 + index * 0x1000)

/-- The 4 MB region an address lies in: the `pd_index` of `mm_page_free`. -/
def regionOf (p : U32) : U32 := p >>> 22

/-- The index of an address's page in its region: the `pt_index` of
`mm_page_free`. -/
def indexOf (p : U32) : U32 := (p >>> 12) &&& 0x3FF#32

theorem toNat_pageAddress (regionBound : region < 1024) (indexBound : index < 1024) :
    (pageAddress region index).toNat = region * 0x400000 + index * 0x1000 := by
  rw [pageAddress, BitVec.toNat_ofNat, Nat.mod_eq_of_lt (by omega)]

theorem pageAddress_inj {region' index' : Nat} (regionBound : region < 1024)
    (indexBound : index < 1024) (regionBound' : region' < 1024) (indexBound' : index' < 1024)
    (same : pageAddress region index = pageAddress region' index') :
    region = region' ∧ index = index' := by
  have value := congrArg BitVec.toNat same
  rw [toNat_pageAddress regionBound indexBound, toNat_pageAddress regionBound' indexBound'] at value
  omega

theorem pageAddress_ne_errNoMem (regionBound : region < 1024) (indexBound : index < 1024) :
    pageAddress region index ≠ errNoMem := by
  intro same
  have value := congrArg BitVec.toNat same
  rw [toNat_pageAddress regionBound indexBound] at value
  simp only [errNoMem, BitVec.toNat_ofNat] at value
  omega

/-- An address inside a page has that page's region and index. -/
theorem region_index_of_pageOf (regionBound : region < 1024) (indexBound : index < 1024)
    (inside : pageOf p = pageAddress region index) :
    (regionOf p).toNat = region ∧ (indexOf p).toNat = index := by
  have value := congrArg BitVec.toNat inside
  rw [toNat_pageAddress regionBound indexBound, pageOf, toNat_and_not_fff] at value
  rw [regionOf, indexOf, toNat_and_3ff, toNat_ushiftRight_div, toNat_ushiftRight_div]
  omega

/-- `mm_page_free` clears the bit of the page's index and nothing else. -/
theorem kPageFree_eq (p : U32) (mm : Mm) :
    kPageFree p mm =
      (p, { mm with mmCurrentPt := mmBitmapUnsetBit mm.mmCurrentPt (indexOf p) }) := by
  have index : ((p &&& ~~~0x3FF#32) >>> 12) &&& 0x3FF#32 = indexOf p := by
    apply BitVec.eq_of_toNat_eq
    rw [indexOf, toNat_and_3ff, toNat_and_3ff, toNat_ushiftRight_div, toNat_ushiftRight_div,
      toNat_and_not_3ff]
    omega
  simp only [kPageFree, mmPageFree, index]

/-! ### One allocation -/

/-- The directory bitmap marks exactly the regions below `region` as full; with
`region = 1024` the whole address space is used up. -/
structure CurrentRegion (mm : Mm) (region : Nat) : Prop where
  bound : region ≤ 1024
  full : ∀ i < 1024, mm.mmCurrentPd.mem i = decide (i < region)

namespace CurrentRegion

theorem firstFree (current : CurrentRegion mm region) (room : region < 1024) :
    mmFirstFree mm.mmCurrentPd = BitVec.ofNat 32 region := by
  apply mmFirstFree_eq_ofNat room
  · rw [current.full region room]
    simp
  · intro j below
    rw [current.full j (Nat.lt_trans below room)]
    simp [below]

theorem firstFree_full (current : CurrentRegion mm 1024) :
    mmFirstFree mm.mmCurrentPd = errNoMem := by
  apply mmFirstFree_eq_errNoMem
  intro k inside
  rw [current.full k inside]
  simp [inside]

/-- Marking the current region full moves on to the next one. -/
theorem next (current : CurrentRegion mm region) (room : region < 1024) {after : Mm}
    (marked : after.mmCurrentPd = mmBitmapSetBit mm.mmCurrentPd (BitVec.ofNat 32 region)) :
    CurrentRegion after (region + 1) := by
  refine ⟨room, fun i inside => ?_⟩
  have index : (BitVec.ofNat 32 region).toNat = region := by
    rw [BitVec.toNat_ofNat, Nat.mod_eq_of_lt (by omega)]
  rw [marked, mem_mmBitmapSetBit, index, current.full i inside, ← Bool.decide_or]
  exact decide_eq_decide.mpr (by omega)

end CurrentRegion

theorem ofNat_ne_errNoMem (inside : k < 1024) :
    BitVec.ofNat 32 k ≠ errNoMem := by
  intro same
  have value := congrArg BitVec.toNat same
  simp only [errNoMem, BitVec.toNat_ofNat] at value
  omega

private theorem address_eq_pageAddress (regionBound : region < 1024) (indexBound : index < 1024) :
    BitVec.ofNat 32 region * 0x1000#32 * 0x400#32 + BitVec.ofNat 32 index * 0x1000#32 =
      pageAddress region index := by
  apply BitVec.eq_of_toNat_eq
  rw [toNat_pageAddress regionBound indexBound]
  simp only [BitVec.toNat_add, BitVec.toNat_mul, BitVec.toNat_ofNat]
  omega

/-- What `mm_page_alloc` does where the current region still has a free page. -/
theorem mmPageAllocDepth_region (depth : Nat) (current : CurrentRegion mm region)
    (room : region < 1024) (inside : k < 1024) (clear : mm.mmCurrentPt.mem k = false)
    (below : ∀ j < k, mm.mmCurrentPt.mem j = true) :
    mmPageAllocDepth (depth + 1) mm =
      some (pageAddress region k,
        { mm with mmCurrentPt := mmBitmapSetBit mm.mmCurrentPt (BitVec.ofNat 32 k) }) := by
  have directory := current.firstFree room
  have table := mmFirstFree_eq_ofNat inside clear below
  simp only [mmPageAllocDepth, directory, table]
  rw [if_pos ⟨ofNat_ne_errNoMem room, ofNat_ne_errNoMem inside⟩,
    address_eq_pageAddress room inside]

/-- What `mm_page_alloc` does once every region is marked full. -/
private theorem mmPageAllocDepth_exhausted {depth : Nat} (current : CurrentRegion mm 1024) :
    mmPageAllocDepth (depth + 1) mm = some (errNoMem, mm) := by
  simp only [mmPageAllocDepth, current.firstFree_full]
  rw [if_neg (by simp), if_neg (by simp)]

theorem kPageAlloc_exhausted (current : CurrentRegion mm 1024) :
    kPageAlloc mm = some (errNoMem, mm) :=
  mmPageAllocDepth_exhausted current

/-- What `mm_page_alloc` does where the current region is full and `mm_alloc`
still supplies a bitmap: the inner call works on an empty next region. -/
private theorem mmPageAllocDepth_swap (depth : Nat) (current : CurrentRegion mm region)
    (room : region < 1024) (full : ∀ k < 1024, mm.mmCurrentPt.mem k = true)
    (swap : mmBitmapInit mm = some (pt, middle)) :
    ∃ next : Mm, CurrentRegion next (region + 1) ∧ next.mmCurrentPt = (fun _ => 0#32) ∧
      next.mmHeap = middle.mmHeap ∧ next.mmHeapMax = middle.mmHeapMax ∧
      mmPageAllocDepth (depth + 1) mm = mmPageAllocDepth depth next := by
  obtain ⟨fresh, samePd, _⟩ := mmBitmapInit_spec swap
  refine ⟨{ middle with
      mmCurrentPt := pt
      mmCurrentPd := mmBitmapSetBit middle.mmCurrentPd (BitVec.ofNat 32 region) },
    current.next room (by simp only [samePd]), fresh, rfl, rfl, ?_⟩
  rw [mmPageAllocDepth]
  simp only [current.firstFree room, mmFirstFree_eq_errNoMem full, swap]
  rw [if_neg (by simp), if_pos ⟨ofNat_ne_errNoMem room, trivial⟩]

/-- Everything a page allocation can do: take the first free page of the current
region, move to the next region and take its first page, run past the last
region, or report that there is no memory left. -/
theorem kPageAlloc_cases {after : Mm} (current : CurrentRegion mm region)
    (alloc : kPageAlloc mm = some (a, after)) :
    (∃ k < 1024, region < 1024 ∧ mm.mmCurrentPt.mem k = false ∧
      (∀ j < k, mm.mmCurrentPt.mem j = true) ∧ a = pageAddress region k ∧
      after.mmCurrentPd = mm.mmCurrentPd ∧
      after.mmCurrentPt = mmBitmapSetBit mm.mmCurrentPt (BitVec.ofNat 32 k)) ∨
    (region + 1 < 1024 ∧ (∀ k < 1024, mm.mmCurrentPt.mem k = true) ∧
      a = pageAddress (region + 1) 0 ∧ CurrentRegion after (region + 1) ∧
      after.mmCurrentPt = mmBitmapSetBit (fun _ => 0#32) 0#32) ∨
    (region + 1 = 1024 ∧ (∀ k < 1024, mm.mmCurrentPt.mem k = true) ∧
      a = errNoMem ∧ CurrentRegion after 1024 ∧ after.mmCurrentPt = (fun _ => 0#32)) ∨
    (region = 1024 ∧ a = errNoMem ∧ after = mm) := by
  rw [kPageAlloc, mmPageAlloc] at alloc
  rcases Nat.lt_or_eq_of_le current.bound with room | exhausted
  · rcases mmFirstFree_cases mm.mmCurrentPt with
      ⟨k, inside, clear, below, _, _⟩ | ⟨full, tableFull⟩
    · rw [mmPageAllocDepth_region _ current room inside clear below] at alloc
      cases alloc
      exact Or.inl ⟨k, inside, room, clear, below, rfl, rfl, rfl⟩
    · cases swap : mmBitmapInit mm with
      | none =>
        rw [mmPageAllocDepth] at alloc
        simp only [current.firstFree room, tableFull, swap] at alloc
        rw [if_neg (by simp), if_pos ⟨ofNat_ne_errNoMem room, trivial⟩] at alloc
        cases alloc
      | some result =>
        obtain ⟨next, moved, empty, _, _, inner⟩ :=
          mmPageAllocDepth_swap 1 current room full swap
        rw [inner] at alloc
        rcases Nat.lt_or_eq_of_le (Nat.succ_le_of_lt room) with nextRoom | last
        · rw [mmPageAllocDepth_region _ moved nextRoom (k := 0) (by decide) (by simp [empty])
            (by simp)] at alloc
          cases alloc
          exact Or.inr (Or.inl ⟨nextRoom, full, rfl, ⟨moved.bound, moved.full⟩, by rw [empty]⟩)
        · have last : region + 1 = 1024 := last
          rw [last] at moved
          rw [mmPageAllocDepth_exhausted moved] at alloc
          cases alloc
          exact Or.inr (Or.inr (Or.inl ⟨last, full, rfl, moved, empty⟩))
  · subst exhausted
    rw [mmPageAllocDepth_exhausted current] at alloc
    cases alloc
    exact Or.inr (Or.inr (Or.inr ⟨rfl, rfl, rfl⟩))

/-- After `k_mm_init` the allocator is in region 1, whose first page is taken. -/
theorem kMmInit_spec {heap heapMax first : U32} (init : kMmInit heap heapMax = some (first, mm)) :
    CurrentRegion mm 1 ∧ first = pageAddress 1 0 ∧
      mm.mmCurrentPt = mmBitmapSetBit (fun _ => 0#32) 0#32 := by
  rw [kMmInit] at init
  obtain ⟨⟨pd, one⟩, freshPd, init⟩ := Option.bind_eq_some_iff.mp init
  obtain ⟨⟨pt, two⟩, freshPt, init⟩ := Option.bind_eq_some_iff.mp init
  obtain ⟨pdZero, _, _⟩ := mmBitmapInit_spec freshPd
  obtain ⟨ptZero, _, _⟩ := mmBitmapInit_spec freshPt
  subst pdZero ptZero
  have start : CurrentRegion
      { two with
        mmCurrentPd := mmBitmapSetBit (fun _ => 0#32) 0#32
        mmCurrentPt := fun _ => 0#32 } 1 := by
    refine ⟨by decide, fun i inside => ?_⟩
    simp only [mem_mmBitmapSetBit, Words.mem_zero, Bool.or_false, BitVec.toNat_ofNat]
    exact decide_eq_decide.mpr (by omega)
  simp only [mmPageAlloc] at init
  rw [mmPageAllocDepth_region _ start (by decide) (k := 0) (by decide) (by simp)
    (by simp)] at init
  cases init
  exact ⟨⟨start.bound, start.full⟩, rfl, rfl⟩

/-! ### Runs of allocations and frees -/

/-- The allocator together with the pages that are live: returned by
`k_page_alloc` and not freed since. -/
structure PageRun where
  mm : Mm
  live : Set U32

/-- The two calls a run is made of. -/
inductive PageEvent where
  | alloc
  | free (p : U32)

/-- One call. A freed address lies inside a live page; `ERR_NO_MEM` is no page. -/
inductive PageStep : PageRun → PageEvent → PageRun → Prop where
  | alloc {run : PageRun} {a : U32} {after : Mm}
      (returned : kPageAlloc run.mm = some (a, after)) :
      PageStep run .alloc
        { mm := after
          live := { page | page ∈ run.live ∨ (page = a ∧ a ≠ errNoMem) } }
  | free {run : PageRun} {p : U32} (inLivePage : pageOf p ∈ run.live) :
      PageStep run (.free p)
        { mm := (kPageFree p run.mm).2
          live := { page | page ∈ run.live ∧ page ≠ pageOf p } }

/-- Runs of `k_page_alloc` and `k_page_free` from `k_mm_init`, for every heap
start and every heap limit. -/
def pageSystem : System PageRun PageEvent where
  Start run := ∃ heap heapMax first, kMmInit heap heapMax = some (first, run.mm) ∧
    run.live = ∅
  Step := PageStep

/-- The frees the one bitmap can account for: the page lies in the region the
bitmap describes, or the bit its index names is clear already. -/
def FreesOwnRegion (run : PageRun) : PageEvent → Prop
  | .alloc => True
  | .free p =>
    regionOf p = mmFirstFree run.mm.mmCurrentPd ∨
      run.mm.mmCurrentPt.mem (indexOf p).toNat = false

/-- What holds in every state of a run whose frees meet `FreesOwnRegion`: live
pages lie in the regions swept so far, and those of the current region have
their bit set. Conversely a set bit belongs to a live page, but for the page
`k_mm_init` keeps to itself. -/
structure PageInvariant (run : PageRun) (region : Nat) : Prop where
  current : CurrentRegion run.mm region
  positive : 1 ≤ region
  livePage : ∀ a ∈ run.live, ∃ r k, 1 ≤ r ∧ r ≤ region ∧ r < 1024 ∧ k < 1024 ∧
    a = pageAddress r k ∧ (r = region → run.mm.mmCurrentPt.mem k = true)
  usedBit : ∀ k < 1024, run.mm.mmCurrentPt.mem k = true → region < 1024 ∧
    (pageAddress region k ∈ run.live ∨ (region = 1 ∧ k = 0))

namespace PageInvariant

theorem start {run : PageRun} (isStart : pageSystem.Start run) : PageInvariant run 1 := by
  obtain ⟨heap, heapMax, first, init, noneLive⟩ := isStart
  obtain ⟨current, _, table⟩ := kMmInit_spec init
  refine ⟨current, Nat.le_refl _, by simp [noneLive], fun k inside set =>
    ⟨by decide, Or.inr ⟨rfl, ?_⟩⟩⟩
  simpa [table] using set

/-- The error value is no page. -/
theorem errNoMem_not_live {run : PageRun} (holds : PageInvariant run region) :
    errNoMem ∉ run.live := by
  intro live
  obtain ⟨r, j, _, _, rBound, jBound, same, _⟩ := holds.livePage errNoMem live
  exact pageAddress_ne_errNoMem rBound jBound same.symm

variable {run : PageRun} {region : Nat} {a : U32} {after : Mm}

/-- A page of the current region is handed out. -/
private theorem alloc_here (holds : PageInvariant run region) (inside : k < 1024)
    (room : region < 1024) (clear : run.mm.mmCurrentPt.mem k = false)
    (isPage : a = pageAddress region k) (samePd : after.mmCurrentPd = run.mm.mmCurrentPd)
    (table : after.mmCurrentPt = mmBitmapSetBit run.mm.mmCurrentPt (BitVec.ofNat 32 k)) :
    a ∉ run.live ∧
      PageInvariant
        { mm := after
          live := { page | page ∈ run.live ∨ (page = a ∧ a ≠ errNoMem) } } region := by
  have index : (BitVec.ofNat 32 k).toNat = k := by
    rw [BitVec.toNat_ofNat, Nat.mod_eq_of_lt (by omega)]
  have notErr : a ≠ errNoMem := isPage ▸ pageAddress_ne_errNoMem room inside
  refine ⟨?_, ⟨holds.current.bound, by rw [samePd]; exact holds.current.full⟩,
    holds.positive, ?_, ?_⟩
  · intro live
    obtain ⟨r, j, _, _, rBound, jBound, same, set⟩ := holds.livePage a live
    obtain ⟨rfl, rfl⟩ := pageAddress_inj room inside rBound jBound (isPage.symm.trans same)
    simp [set rfl] at clear
  · intro page member
    rcases member with old | ⟨new, _⟩
    · obtain ⟨r, j, positive, upTo, rBound, jBound, same, set⟩ := holds.livePage page old
      refine ⟨r, j, positive, upTo, rBound, jBound, same, fun isCurrent => ?_⟩
      simp [table, set isCurrent]
    · exact ⟨region, k, holds.positive, Nat.le_refl _, room, inside, new.trans isPage,
        fun _ => by simp [table, index]⟩
  · intro j jBound set
    refine ⟨room, ?_⟩
    simp only [table, mem_mmBitmapSetBit, index, Bool.or_eq_true, decide_eq_true_eq] at set
    rcases set with rfl | set
    · exact Or.inl (Or.inr ⟨isPage.symm, notErr⟩)
    · rcases (holds.usedBit j jBound set).2 with live | first
      · exact Or.inl (Or.inl live)
      · exact Or.inr first

/-- The first page of the next region is handed out. -/
private theorem alloc_next (holds : PageInvariant run region) (room : region + 1 < 1024)
    (isPage : a = pageAddress (region + 1) 0) (moved : CurrentRegion after (region + 1))
    (table : after.mmCurrentPt = mmBitmapSetBit (fun _ => 0#32) 0#32) :
    a ∉ run.live ∧
      PageInvariant
        { mm := after
          live := { page | page ∈ run.live ∨ (page = a ∧ a ≠ errNoMem) } } (region + 1) := by
  have notErr : a ≠ errNoMem := isPage ▸ pageAddress_ne_errNoMem room (by decide)
  refine ⟨?_, moved, Nat.le_add_left _ _, ?_, ?_⟩
  · intro live
    obtain ⟨r, j, _, upTo, rBound, jBound, same, _⟩ := holds.livePage a live
    have regions :=
      (pageAddress_inj room (by decide) rBound jBound (isPage.symm.trans same)).1
    omega
  · intro page member
    rcases member with old | ⟨new, _⟩
    · obtain ⟨r, j, positive, upTo, rBound, jBound, same, _⟩ := holds.livePage page old
      exact ⟨r, j, positive, Nat.le_succ_of_le upTo, rBound, jBound, same,
        fun isCurrent => by omega⟩
    · exact ⟨region + 1, 0, Nat.le_add_left _ _, Nat.le_refl _, room, by decide,
        new.trans isPage, fun _ => by simp [table]⟩
  · intro j jBound set
    refine ⟨room, Or.inl (Or.inr ⟨?_, notErr⟩)⟩
    have zero : j = 0 := by simpa [table] using set
    rw [zero, isPage]

/-- Handing out a page keeps the invariant, and the page was not live. -/
theorem alloc (holds : PageInvariant run region)
    (returned : kPageAlloc run.mm = some (a, after)) :
    a ∉ run.live ∧
      ∃ next, PageInvariant
        { mm := after
          live := { page | page ∈ run.live ∨ (page = a ∧ a ≠ errNoMem) } } next := by
  rcases kPageAlloc_cases holds.current returned with
    ⟨k, inside, room, clear, below, isPage, samePd, table⟩ |
    ⟨room, full, isPage, moved, table⟩ | ⟨last, full, isErr, moved, table⟩ |
    ⟨exhausted, isErr, unchanged⟩
  · obtain ⟨fresh, kept⟩ := holds.alloc_here inside room clear isPage samePd table
    exact ⟨fresh, region, kept⟩
  · obtain ⟨fresh, kept⟩ := holds.alloc_next room isPage moved table
    exact ⟨fresh, region + 1, kept⟩
  · -- past the last region
    refine ⟨?_, 1024, moved, by decide, ?_, fun j jBound set => by simp [table] at set⟩
    · rw [isErr]
      exact holds.errNoMem_not_live
    · intro page member
      rcases member with old | ⟨_, notErr⟩
      · obtain ⟨r, j, positive, upTo, rBound, jBound, same, _⟩ := holds.livePage page old
        exact ⟨r, j, positive, Nat.le_of_lt rBound, rBound, jBound, same,
          fun isCurrent => by omega⟩
      · exact absurd isErr notErr
  · -- no memory left
    subst unchanged
    refine ⟨?_, region, holds.current, holds.positive, ?_, ?_⟩
    · rw [isErr]
      exact holds.errNoMem_not_live
    · intro page member
      rcases member with old | ⟨_, notErr⟩
      · exact holds.livePage page old
      · exact absurd isErr notErr
    · intro j jBound set
      obtain ⟨room, _⟩ := holds.usedBit j jBound set
      omega

/-- A free that meets `FreesOwnRegion` clears the bit of no other live page. -/
theorem free {run : PageRun} (holds : PageInvariant run region) (inLivePage : pageOf p ∈ run.live)
    (own : FreesOwnRegion run (.free p)) :
    PageInvariant
      { mm := (kPageFree p run.mm).2
        live := { page | page ∈ run.live ∧ page ≠ pageOf p } } region := by
  obtain ⟨r, k, _, upTo, rBound, kBound, same, set⟩ := holds.livePage _ inLivePage
  obtain ⟨regionValue, indexValue⟩ := region_index_of_pageOf rBound kBound same
  rw [kPageFree_eq]
  refine ⟨⟨holds.current.bound, holds.current.full⟩, holds.positive, ?_, ?_⟩
  · rintro page ⟨live, other⟩
    obtain ⟨r', k', positive, upTo', rBound', kBound', same', set'⟩ := holds.livePage page live
    refine ⟨r', k', positive, upTo', rBound', kBound', same', fun isCurrent => ?_⟩
    have stillSet := set' isCurrent
    suffices differs : k' ≠ k by simp [indexValue, differs, stillSet]
    rintro rfl
    rcases own with ownRegion | clear
    · -- the freed page is in the current region, so it is this very page
      rw [holds.current.firstFree (isCurrent ▸ rBound')] at ownRegion
      have regionIs : r = region := by
        rw [ownRegion, BitVec.toNat_ofNat, Nat.mod_eq_of_lt (by omega)] at regionValue
        exact regionValue.symm
      exact other (by rw [same', same, isCurrent, regionIs])
    · rw [indexValue] at clear
      simp [clear] at stillSet
  · intro j jBound setAfter
    simp only [mem_mmBitmapUnsetBit, indexValue, Bool.and_eq_true, decide_eq_true_eq] at setAfter
    obtain ⟨notFreed, setBefore⟩ := setAfter
    obtain ⟨room, liveOrFirst⟩ := holds.usedBit j jBound setBefore
    refine ⟨room, ?_⟩
    rcases liveOrFirst with live | first
    · refine Or.inl ⟨live, fun isFreed => notFreed ?_⟩
      exact (pageAddress_inj room jBound rBound kBound (isFreed.trans same)).2
    · exact Or.inr first

theorem of_reachable {run : PageRun}
    (reached : (pageSystem.restrict FreesOwnRegion).Reachable run) :
    ∃ region, PageInvariant run region := by
  refine reached.invariant (fun run => ∃ region, PageInvariant run region)
    (fun run isStart => ⟨1, start isStart⟩) ?_
  rintro before event after ⟨region, holds⟩ ⟨own, taken⟩
  change PageStep before event after at taken
  cases taken with
  | alloc returned => exact (holds.alloc returned).2
  | free inLivePage => exact ⟨region, holds.free inLivePage own⟩

end PageInvariant

private theorem reachable_alloc {run : PageRun} {after : Mm}
    (reached : (pageSystem.restrict FreesOwnRegion).Reachable run)
    (returned : kPageAlloc run.mm = some (a, after)) :
    (pageSystem.restrict FreesOwnRegion).Reachable
      { mm := after
        live := { page | page ∈ run.live ∨ (page = a ∧ a ≠ errNoMem) } } := by
  have taken : (pageSystem.restrict FreesOwnRegion).Step run .alloc _ :=
    ⟨trivial, PageStep.alloc returned⟩
  exact .step reached taken

private theorem reachable_free {run : PageRun}
    (reached : (pageSystem.restrict FreesOwnRegion).Reachable run)
    (inLivePage : pageOf p ∈ run.live) (own : FreesOwnRegion run (.free p)) :
    (pageSystem.restrict FreesOwnRegion).Reachable
      { mm := (kPageFree p run.mm).2
        live := { page | page ∈ run.live ∧ page ≠ pageOf p } } := by
  have taken : (pageSystem.restrict FreesOwnRegion).Step run (.free p) _ :=
    ⟨own, PageStep.free inLivePage⟩
  exact .step reached taken

/-- In every run whose frees hit the region the bitmap describes, a page that is
still live is never handed out again. -/
theorem page_never_handed_out_twice {run : PageRun}
    (reached : (pageSystem.restrict FreesOwnRegion).Reachable run) {a : U32} {after : Mm}
    (returned : kPageAlloc run.mm = some (a, after)) : a ∉ run.live := by
  obtain ⟨region, holds⟩ := PageInvariant.of_reachable reached
  exact (holds.alloc returned).1

/-! ### Why the condition is the right one

A free outside `FreesOwnRegion` clears the bit of another live page. Allocating
on, that page's bit becomes the first clear one, and the page is handed out while
it is live. -/

/-- Runs of the allocator that go on from `run`. -/
def pageSystemFrom (run : PageRun) : System PageRun PageEvent where
  Start state := state = run
  Step := PageStep

/-- A live page of the current region whose bit is clear is handed out again. The
induction is on how far below `k` a clear bit may still lie: an allocation takes
the lowest one. -/
private theorem clear_live_page_reissued (first : PageRun) (gap : Nat) (room : region < 1024)
    (inside : k < 1024) : ∀ {run : PageRun},
    (pageSystemFrom first).Reachable run → CurrentRegion run.mm region →
    run.mm.mmCurrentPt.mem k = false → pageAddress region k ∈ run.live →
    (∀ j, j + gap < k → run.mm.mmCurrentPt.mem j = true) →
    ∃ later a after, (pageSystemFrom first).Reachable later ∧
      kPageAlloc later.mm = some (a, after) ∧ a ∈ later.live := by
  induction gap with
  | zero =>
    intro run reached current clear live below
    exact ⟨run, _, _, reached, mmPageAllocDepth_region 1 current room inside clear below, live⟩
  | succ gap ih =>
    intro run reached current clear live below
    by_cases fits : gap + 1 ≤ k
    · obtain ⟨j, split⟩ : ∃ j, k = j + (gap + 1) := ⟨k - (gap + 1), by omega⟩
      have jBelow : ∀ i < j, run.mm.mmCurrentPt.mem i = true :=
        fun i less => below i (by omega)
      cases bit : run.mm.mmCurrentPt.mem j with
      | true =>
        refine ih reached current clear live fun i less => ?_
        rcases Nat.lt_or_eq_of_le (show i ≤ j by omega) with lower | rfl
        · exact jBelow i lower
        · exact bit
      | false =>
        have returned :=
          mmPageAllocDepth_region 1 current room (show j < 1024 by omega) bit jBelow
        have index : (BitVec.ofNat 32 j).toNat = j := by
          rw [BitVec.toNat_ofNat, Nat.mod_eq_of_lt (by omega)]
        refine ih (reached.step (PageStep.alloc returned))
          ⟨current.bound, current.full⟩ ?_ (Or.inl live) fun i less => ?_
        · simp [index, clear, show k ≠ j by omega]
        · rcases Nat.lt_or_eq_of_le (show i ≤ j by omega) with lower | rfl
          · simp [jBelow i lower]
          · simp [index]
    · exact ih reached current clear live fun i less => by omega

/-- After a free outside `FreesOwnRegion`, allocations alone lead to a page being
handed out while it is live. -/
theorem stray_free_reissues_live_page {run : PageRun}
    (reached : (pageSystem.restrict FreesOwnRegion).Reachable run)
    (inLivePage : pageOf p ∈ run.live) (stray : ¬ FreesOwnRegion run (.free p)) :
    ∃ freed later a after, PageStep run (.free p) freed ∧
      (pageSystemFrom freed).Reachable later ∧
      kPageAlloc later.mm = some (a, after) ∧ a ∈ later.live := by
  obtain ⟨region, holds⟩ := PageInvariant.of_reachable reached
  obtain ⟨r, k, positive, upTo, rBound, kBound, same, _⟩ := holds.livePage _ inLivePage
  obtain ⟨regionValue, indexValue⟩ := region_index_of_pageOf rBound kBound same
  simp only [FreesOwnRegion, indexValue, not_or, Bool.not_eq_false] at stray
  obtain ⟨otherRegion, set⟩ := stray
  obtain ⟨room, liveOrFirst⟩ := holds.usedBit k kBound set
  -- the freed page lies in an earlier region than the one whose bit it names
  have earlier : r ≠ region := by
    rintro rfl
    refine otherRegion (BitVec.eq_of_toNat_eq ?_)
    rw [regionValue, holds.current.firstFree room, BitVec.toNat_ofNat,
      Nat.mod_eq_of_lt (by omega)]
  have live : pageAddress region k ∈ run.live := by
    rcases liveOrFirst with live | ⟨firstRegion, _⟩
    · exact live
    · omega
  have kept : pageAddress region k ≠ pageOf p := fun equal =>
    earlier (pageAddress_inj room kBound rBound kBound (equal.trans same)).1.symm
  obtain ⟨later, a, after, reachedLater, returned, again⟩ :=
    clear_live_page_reissued
      { mm := (kPageFree p run.mm).2
        live := { page | page ∈ run.live ∧ page ≠ pageOf p } }
      k room kBound (.start rfl)
      (by rw [kPageFree_eq]; exact ⟨holds.current.bound, holds.current.full⟩)
      (by rw [kPageFree_eq]; simp [indexValue]) ⟨live, kept⟩ (fun j less => by omega)
  exact ⟨_, later, a, after, .free inLivePage, reachedLater, returned, again⟩

/-! ### Sweeping a region

Without frees a region is handed out from its first page to its last. -/

/-- The current region is `region`, and exactly its first `k` pages are taken. -/
structure Swept (mm : Mm) (region k : Nat) : Prop where
  current : CurrentRegion mm region
  table : ∀ i < 1024, mm.mmCurrentPt.mem i = decide (i < k)

namespace Swept

/-- The next allocation takes page `k`. -/
theorem alloc (swept : Swept mm region k) (room : region < 1024) (inside : k < 1024) :
    ∃ after : Mm, kPageAlloc mm = some (pageAddress region k, after) ∧
      Swept after region (k + 1) ∧ after.mmHeap = mm.mmHeap ∧
      after.mmHeapMax = mm.mmHeapMax := by
  have clear : mm.mmCurrentPt.mem k = false := by
    rw [swept.table k inside]
    simp
  have below : ∀ j < k, mm.mmCurrentPt.mem j = true := by
    intro j less
    rw [swept.table j (Nat.lt_trans less inside)]
    simp [less]
  have index : (BitVec.ofNat 32 k).toNat = k := by
    rw [BitVec.toNat_ofNat, Nat.mod_eq_of_lt (by omega)]
  refine ⟨_, mmPageAllocDepth_region _ swept.current room inside clear below,
    ⟨⟨swept.current.bound, swept.current.full⟩, ?_⟩, rfl, rfl⟩
  intro i iBound
  simp only [mem_mmBitmapSetBit, index, swept.table i iBound, ← Bool.decide_or]
  exact decide_eq_decide.mpr (by omega)

/-- Once the region is full the next allocation starts the region after it, as
long as `mm_alloc` supplies a bitmap. -/
theorem swap (swept : Swept mm region 1024) (room : region + 1 < 1024)
    (fresh : mmBitmapInit mm = some (pt, middle)) :
    ∃ after : Mm, kPageAlloc mm = some (pageAddress (region + 1) 0, after) ∧
      Swept after (region + 1) 1 := by
  have full : ∀ k < 1024, mm.mmCurrentPt.mem k = true := by
    intro k inside
    rw [swept.table k inside]
    simp [inside]
  obtain ⟨next, moved, empty, _, _, inner⟩ :=
    mmPageAllocDepth_swap 1 swept.current (Nat.lt_of_succ_lt room) full fresh
  have first := mmPageAllocDepth_region 0 moved room (k := 0) (by decide)
    (by simp [empty]) (by simp)
  refine ⟨_, inner.trans first, ⟨⟨moved.bound, moved.full⟩, ?_⟩⟩
  intro i iBound
  simp only [empty, mem_mmBitmapSetBit, Words.mem_zero, Bool.or_false, BitVec.toNat_ofNat]
  exact decide_eq_decide.mpr (by omega)

end Swept

/-! ### A free that clears another region's bit

From a boot with the source's heap limit: fill region 1, take two pages of
region 2, and free page 1 of region 1. The bit that goes is the one of page 1 of
region 2, which is live and is the next page handed out. -/

/-- The allocator as `k_mm_init` leaves it for a kernel that ends at 1 MB. -/
theorem boot_mm : ∃ mm : Mm,
    kMmInit 0xC0100000#32 0xC0300000#32 = some (pageAddress 1 0, mm) ∧ Swept mm 1 1 ∧
      mm.mmHeap = 0xC0109000#32 ∧ mm.mmHeapMax = 0xC0300000#32 := by
  have fields : (kMmInit 0xC0100000#32 0xC0300000#32).map
      (fun result => (result.2.mmHeap, result.2.mmHeapMax)) =
        some (0xC0109000#32, 0xC0300000#32) := by decide +kernel
  cases init : kMmInit 0xC0100000#32 0xC0300000#32 with
  | none => simp [init] at fields
  | some result =>
    obtain ⟨first, mm⟩ := result
    simp only [init, Option.map_some, Option.some.injEq, Prod.mk.injEq] at fields
    obtain ⟨current, isFirst, table⟩ := kMmInit_spec init
    refine ⟨mm, by rw [isFirst], ⟨current, fun i inside => ?_⟩, fields.1, fields.2⟩
    simp only [table, mem_mmBitmapSetBit, Words.mem_zero, Bool.or_false, BitVec.toNat_ofNat]
    exact decide_eq_decide.mpr (by omega)

/-- Two pages are live, the first is given back through an address inside it, and
the page handed out next is not the one still live. -/
theorem freed_page_handed_out_again : ∃ run a after,
    (pageSystem.restrict FreesOwnRegion).Reachable run ∧
      kPageAlloc run.mm = some (a, after) ∧ pageAddress 1 2 ∈ run.live ∧ a ∉ run.live := by
  obtain ⟨mm, init, swept, _, _⟩ := boot_mm
  obtain ⟨mmOne, returnedOne, sweptOne, _, _⟩ := swept.alloc (by decide) (by decide)
  obtain ⟨mmTwo, returnedTwo, sweptTwo, _, _⟩ := sweptOne.alloc (by decide) (by decide)
  have reachedBoot : (pageSystem.restrict FreesOwnRegion).Reachable
      { mm := mm, live := ∅ } := .start ⟨_, _, _, init, rfl⟩
  have reachedTwo := reachable_alloc (reachable_alloc reachedBoot returnedOne) returnedTwo
  have inPage : pageOf (pageAddress 1 1 + 0x30#32) = pageAddress 1 1 := by decide
  have own : regionOf (pageAddress 1 1 + 0x30#32) = mmFirstFree mmTwo.mmCurrentPd := by
    rw [sweptTwo.current.firstFree (by decide)]
    decide
  have reachedFree := reachable_free reachedTwo (p := pageAddress 1 1 + 0x30#32)
    (Or.inl (Or.inr ⟨inPage, by decide⟩)) (Or.inl own)
  have index : (indexOf (pageAddress 1 1 + 0x30#32)).toNat = 1 := by decide
  have freed : CurrentRegion (kPageFree (pageAddress 1 1 + 0x30#32) mmTwo).2 1 := by
    rw [kPageFree_eq]
    exact ⟨sweptTwo.current.bound, sweptTwo.current.full⟩
  have returned := mmPageAllocDepth_region 1 freed (k := 1) (by decide) (by decide)
    (by rw [kPageFree_eq]; simp [index])
    (by
      intro j below
      rw [kPageFree_eq]
      simp only [mem_mmBitmapUnsetBit, index, sweptTwo.table j (by omega)]
      simp [Nat.ne_of_lt below, Nat.lt_of_lt_of_le below (by decide : 1 ≤ 3)])
  exact ⟨_, _, _, reachedFree, returned, ⟨Or.inr ⟨rfl, by decide⟩, by rw [inPage]; decide⟩,
    page_never_handed_out_twice reachedFree returned⟩

/-- `k` further allocations take pages `1 .. k` of region 1. -/
theorem sweep_region_one (k : Nat) (inside : k < 1024) : ∃ run : PageRun,
    pageSystem.Reachable run ∧ Swept run.mm 1 (k + 1) ∧
      run.mm.mmHeap = 0xC0109000#32 ∧ run.mm.mmHeapMax = 0xC0300000#32 ∧
      ∀ j, 1 ≤ j → j ≤ k → pageAddress 1 j ∈ run.live := by
  induction k with
  | zero =>
    obtain ⟨mm, init, swept, heap, heapMax⟩ := boot_mm
    exact ⟨{ mm := mm, live := ∅ }, .start ⟨_, _, _, init, rfl⟩, swept, heap, heapMax,
      fun j positive upTo => by omega⟩
  | succ k ih =>
    obtain ⟨run, reached, swept, heap, heapMax, live⟩ := ih (by omega)
    obtain ⟨after, returned, next, sameHeap, sameMax⟩ := swept.alloc (by decide) inside
    refine ⟨_, reached.step (PageStep.alloc returned), next, sameHeap.trans heap,
      sameMax.trans heapMax, fun j positive upTo => ?_⟩
    rcases Nat.lt_or_eq_of_le upTo with old | rfl
    · exact Or.inl (live j positive (by omega))
    · exact Or.inr ⟨rfl, pageAddress_ne_errNoMem (by decide) inside⟩

/-- A live page is handed out a second time. -/
theorem live_page_handed_out_again :
    ¬ ∀ run, pageSystem.Reachable run → ∀ a after,
      kPageAlloc run.mm = some (a, after) → a ∉ run.live := by
  intro safe
  obtain ⟨full, reachedFull, swept, heap, heapMax, live⟩ := sweep_region_one 1023 (by decide)
  obtain ⟨middle, fresh⟩ := mmBitmapInit_of_room
    (show full.mm.mmHeap ≠ 0#32 by rw [heap]; decide) (by rw [heap, heapMax]; decide)
  -- two pages of region 2
  obtain ⟨mmOne, returnedOne, sweptOne⟩ := swept.swap (by decide) fresh
  obtain ⟨mmTwo, returnedTwo, sweptTwo, _, _⟩ := sweptOne.alloc (by decide) (by decide)
  have reachedTwo := (reachedFull.step (PageStep.alloc returnedOne)).step
    (PageStep.alloc returnedTwo)
  have onePageOf : pageOf (pageAddress 1 1) = pageAddress 1 1 := by decide
  have notErr : pageAddress 2 1 ≠ errNoMem := by decide
  -- free page 1 of region 1
  have reachedFree := reachedTwo.step (PageStep.free (p := pageAddress 1 1)
    (Or.inl (Or.inl (by rw [onePageOf]; exact live 1 (by decide) (by decide)))))
  have isLive : pageAddress 2 1 ≠ pageOf (pageAddress 1 1) := by decide
  have index : (indexOf (pageAddress 1 1)).toNat = 1 := by decide
  -- page 1 of region 2 is free again in the bitmap, and live
  have freed : CurrentRegion (kPageFree (pageAddress 1 1) mmTwo).2 2 := by
    rw [kPageFree_eq]
    exact ⟨sweptTwo.current.bound, sweptTwo.current.full⟩
  have again := mmPageAllocDepth_region 1 freed (k := 1) (by decide) (by decide)
    (by rw [kPageFree_eq]; simp [index])
    (by
      intro j below
      rw [kPageFree_eq]
      simp only [mem_mmBitmapUnsetBit, index, sweptTwo.table j (by omega)]
      simp [Nat.ne_of_lt below, Nat.lt_of_lt_of_le below (by decide : 1 ≤ 2)])
  exact safe _ reachedFree _ _ again ⟨Or.inr ⟨rfl, notErr⟩, isLive⟩

/-! ### Pages that are not handed out again

Between two frees the sweep only goes up, so what has been handed out stays out,
whatever the frees before them did to the bitmaps. -/

/-- The allocator is in some region from the first on. -/
def Sweeping (mm : Mm) : Prop :=
  ∃ region, 1 ≤ region ∧ CurrentRegion mm region

/-- The sweep is past the page `f`. -/
def FrameTaken (mm : Mm) (f : U32) : Prop :=
  ∃ region r k, CurrentRegion mm region ∧ 1 ≤ r ∧ r < 1024 ∧ k < 1024 ∧ f = pageAddress r k ∧
    (r < region ∨ (r = region ∧ mm.mmCurrentPt.mem k = true))

theorem CurrentRegion.unique {other : Nat} (current : CurrentRegion mm region)
    (otherCurrent : CurrentRegion mm other) : region = other := by
  have notBelow : ∀ {one two : Nat}, CurrentRegion mm one → CurrentRegion mm two → ¬ one < two := by
    intro one two isOne isTwo below
    have inside : one < 1024 := Nat.lt_of_lt_of_le below isTwo.bound
    have bit := isOne.full one inside
    rw [isTwo.full one inside] at bit
    simp [below] at bit
  exact Nat.le_antisymm (Nat.le_of_not_lt (notBelow otherCurrent current))
    (Nat.le_of_not_lt (notBelow current otherCurrent))

namespace FrameTaken

variable {mm mm' : Mm} {f : U32}

theorem page (taken : FrameTaken mm f) : f.toNat % 4096 = 0 ∧ 0x400000 ≤ f.toNat := by
  obtain ⟨_, r, k, _, positive, rBound, kBound, rfl, _⟩ := taken
  rw [toNat_pageAddress rBound kBound]
  omega

/-- The sweep goes on: bits of the region stay set, or the region is left behind. -/
theorem mono {next : Nat} (current : CurrentRegion mm region) (moved : CurrentRegion mm' next)
    (kept : region < next ∨ (region = next ∧
      ∀ k < 1024, mm.mmCurrentPt.mem k = true → mm'.mmCurrentPt.mem k = true))
    (taken : FrameTaken mm f) : FrameTaken mm' f := by
  obtain ⟨own, r, k, isOwn, positive, rBound, kBound, isPage, out⟩ := taken
  cases isOwn.unique current
  refine ⟨next, r, k, moved, positive, rBound, kBound, isPage, ?_⟩
  rcases kept with left | ⟨rfl, bits⟩
  · rcases out with below | ⟨rfl, _⟩
    · exact Or.inl (Nat.lt_trans below left)
    · exact Or.inl left
  · rcases out with below | ⟨same, bit⟩
    · exact Or.inl below
    · exact Or.inr ⟨same, bits k kBound bit⟩

end FrameTaken

/-- A page that is handed out was not out, is out afterwards, and everything that
was out stays out. -/
theorem kPageAlloc_taken {mm' : Mm} (sweeping : Sweeping mm)
    (returned : kPageAlloc mm = some (a, mm')) :
    Sweeping mm' ∧ (∀ f, FrameTaken mm f → FrameTaken mm' f) ∧
      (a ≠ errNoMem → ¬ FrameTaken mm a ∧ FrameTaken mm' a) := by
  obtain ⟨region, positive, current⟩ := sweeping
  rcases kPageAlloc_cases current returned with
    ⟨k, inside, room, clear, _, rfl, samePd, table⟩ | ⟨room, _, rfl, moved, table⟩ |
    ⟨last, _, rfl, moved, _⟩ | ⟨_, rfl, rfl⟩
  · have index : (BitVec.ofNat 32 k).toNat = k := by
      rw [BitVec.toNat_ofNat, Nat.mod_eq_of_lt (by omega)]
    have same : CurrentRegion mm' region :=
      ⟨current.bound, by rw [samePd]; exact current.full⟩
    have bits : ∀ j < 1024, mm.mmCurrentPt.mem j = true → mm'.mmCurrentPt.mem j = true := by
      intro j _ set
      rw [table, mem_mmBitmapSetBit, set, Bool.or_true]
    have now : mm'.mmCurrentPt.mem k = true := by simp [table, index]
    refine ⟨⟨region, positive, same⟩, fun f => FrameTaken.mono current same (Or.inr ⟨rfl, bits⟩),
      fun _ => ⟨?_, region, region, k, same, positive, room, inside, rfl, Or.inr ⟨rfl, now⟩⟩⟩
    rintro ⟨own, r, j, isOwn, _, rBound, jBound, isPage, out⟩
    cases isOwn.unique current
    obtain ⟨rfl, rfl⟩ := pageAddress_inj room inside rBound jBound isPage
    rcases out with below | ⟨_, set⟩
    · exact Nat.lt_irrefl _ below
    · rw [set] at clear
      cases clear
  · have now : mm'.mmCurrentPt.mem 0 = true := by simp [table]
    refine ⟨⟨region + 1, by omega, moved⟩,
      fun f => FrameTaken.mono current moved (Or.inl (Nat.lt_succ_self _)), fun _ => ⟨?_,
        region + 1, region + 1, 0, moved, by omega, room, by decide, rfl, Or.inr ⟨rfl, now⟩⟩⟩
    rintro ⟨own, r, j, isOwn, _, rBound, jBound, isPage, out⟩
    cases isOwn.unique current
    obtain ⟨rfl, rfl⟩ := pageAddress_inj room (by decide) rBound jBound isPage
    rcases out with below | ⟨same, _⟩
    · omega
    · omega
  · exact ⟨⟨1024, by decide, moved⟩, fun f => FrameTaken.mono current moved (Or.inl (by omega)),
      fun notErr => absurd rfl notErr⟩
  · exact ⟨⟨region, positive, current⟩, fun _ => id, fun notErr => absurd rfl notErr⟩

/-- Every run sweeps, frees of any kind included: they leave the directory bitmap
alone. -/
theorem sweeping_of_reachable {run : PageRun} (reached : pageSystem.Reachable run) :
    Sweeping run.mm := by
  refine reached.invariant (fun run => Sweeping run.mm) ?_ ?_
  · rintro run ⟨heap, heapMax, first, init, _⟩
    exact ⟨1, Nat.le_refl _, (kMmInit_spec init).1⟩
  · intro before event after sweeping taken
    change PageStep before event after at taken
    cases taken with
    | alloc returned => exact (kPageAlloc_taken sweeping returned).1
    | free inLivePage =>
      obtain ⟨region, positive, current⟩ := sweeping
      refine ⟨region, positive, ?_⟩
      rw [kPageFree_eq]
      exact ⟨current.bound, current.full⟩

end Crunchy
