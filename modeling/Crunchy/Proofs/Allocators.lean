/-
Module: Crunchy.Proofs.Allocators
Purpose: The three allocators keep out of each other's memory: `mm_alloc` below
  `K_HEAP_BOTTOM`, the heap from there on, and the frames of the page allocator
  above everything `mm_alloc` hands out.
Trusted boundary: none
Main exports: Handed, memorySystem, AddressSumsFit, allocators_apart
-/
import Crunchy.Mem.Allocators
import Crunchy.Proofs.HeapBottom
import Crunchy.Proofs.HeapLive
import Crunchy.Proofs.PageSweep

namespace Crunchy

open Lib BitVec Option List

variable {m : KernelMemory} {call : MemoryCall} {after : MemoryRun} {n : U32}

/-! ### `mm_alloc` -/

theorem toNat_mmAdvance (n : U32) :
    (mmAdvance n).toNat = if 0x1000 ≤ n.toNat then n.toNat / 4096 * 4096 else 0x1000 := by
  rw [mmAdvance]
  by_cases large : 0x1000#32 ≤ n
  · have value : 0x1000 ≤ n.toNat := le_def.mp large
    rw [if_pos large, if_pos value, toNat_and_not_fff]
  · have value : ¬0x1000 ≤ n.toNat := fun low => large (le_def.mpr low)
    rw [if_neg large, if_neg value]
    rfl

/-- What `mm_alloc` hands out ends below the limit and below the new `MM_HEAP`,
where the word-scaled sum fits: rounding the advance down loses less than the
scaling by four gains. -/
theorem mmAlloc_range {mm : Mm} (limit : mm.mmHeapMax.toNat ≤ 0xC0300000)
    (fits : mm.mmHeap.toNat + 4 * n.toNat < 2 ^ 32) (room : mm.mmHeap + 4 * n < mm.mmHeapMax) :
    mm.mmHeap.toNat + n.toNat ≤ mm.mmHeapMax.toNat ∧
      mm.mmHeap.toNat + n.toNat ≤ (mm.mmHeap + 4 * mmAdvance n).toNat ∧
      (mm.mmHeap + 4 * mmAdvance n).toNat ≤ 0xC0304000 ∧
      (mm.mmHeap + 4 * mmAdvance n).toNat % 4096 = mm.mmHeap.toNat % 4096 := by
  have scaled : (mm.mmHeap + 4 * n).toNat = mm.mmHeap.toNat + 4 * n.toNat := by
    rw [toNat_add, toNat_mul]
    simp only [ofNat_eq_ofNat, toNat_ofNat]
    omega
  rw [lt_def, scaled] at room
  have advance := toNat_mmAdvance n
  have moved : (mm.mmHeap + 4 * mmAdvance n).toNat =
      mm.mmHeap.toNat + 4 * (mmAdvance n).toNat := by
    rw [toNat_add, toNat_mul]
    simp only [ofNat_eq_ofNat, toNat_ofNat]
    split at advance <;> omega
  split at advance <;> omega

/-! ### The invariant -/

/-- The ranges handed out lie one after the other between the kernel and `MM_HEAP`,
below the limit. -/
structure HandedRanges (mm : Mm) (handed : List (U32 × U32)) : Prop where
  limit : mm.mmHeapMax = mmHeapMaxBoot
  low : 0xC0100000 ≤ mm.mmHeap.toNat
  high : mm.mmHeap.toNat ≤ 0xC0304000
  aligned : mm.mmHeap.toNat % 4096 = 0
  ranges : ∀ range ∈ handed, range.1.toNat % 4096 = 0 ∧ 0xC0100000 ≤ range.1.toNat ∧
    range.1.toNat + range.2.toNat ≤ 0xC0300000 ∧
    range.1.toNat + range.2.toNat ≤ mm.mmHeap.toNat
  apart : handed.Pairwise RangesApart

namespace HandedRanges

variable {mm mm' : Mm} {handed : List (U32 × U32)}

theorem of_heap (holds : HandedRanges mm handed) (heap : mm'.mmHeap = mm.mmHeap)
    (limit : mm'.mmHeapMax = mm.mmHeapMax) : HandedRanges mm' handed := by
  refine ⟨limit.trans holds.limit, ?_, ?_, ?_, ?_, holds.apart⟩
  all_goals rw [heap]
  · exact holds.low
  · exact holds.high
  · exact holds.aligned
  · exact holds.ranges

/-- `mm_alloc(n)`, called on its own or by one of the other allocators. -/
theorem mmAlloc (holds : HandedRanges mm handed) (fits : mm.mmHeap.toNat + 4 * n.toNat < 2 ^ 32) :
    HandedRanges (mmAlloc n mm).2 (addHanded (mmAlloc n mm).1 n handed) := by
  have max : mm.mmHeapMax.toNat = 0xC0300000 := by
    rw [holds.limit]
    rfl
  rcases mmAlloc_cases n mm with refused | ⟨heapSet, room, served⟩
  · rw [refused, addHanded, if_pos rfl]
    exact holds
  · obtain ⟨below, beyond, high, aligned⟩ := mmAlloc_range (by omega) fits room
    have low := holds.low
    have onPage := holds.aligned
    rw [served, addHanded, if_neg heapSet]
    refine ⟨holds.limit, Nat.le_trans (Nat.le_add_right_of_le low) beyond, high,
      aligned.trans onPage, ?_, ?_⟩
    · intro range member
      rcases mem_cons.mp member with rfl | old
      · exact ⟨onPage, low, max ▸ below, beyond⟩
      · obtain ⟨rangeAligned, rangeLow, rangeBelow, rangeEnd⟩ := holds.ranges range old
        exact ⟨rangeAligned, rangeLow, rangeBelow,
          Nat.le_trans rangeEnd (Nat.le_trans (Nat.le_add_right _ _) beyond)⟩
    · refine pairwise_cons.mpr ⟨fun range old => Or.inr ?_, holds.apart⟩
      exact (holds.ranges range old).2.2.2

/-- The requests the kernel itself makes never wrap. -/
theorem own_request (holds : HandedRanges mm handed) (small : n.toNat ≤ 0x1000) :
    mm.mmHeap.toNat + 4 * n.toNat < 2 ^ 32 := by
  have high := holds.high
  omega

end HandedRanges

/-- What holds of the machine in every state: the ranges are in order, and the
frames handed out lie above the first 4 MB. -/
structure Handed (m : KernelMemory) : Prop where
  ordered : HandedRanges m.kernel.mm m.handed
  sweeping : Sweeping m.kernel.mm
  frames : ∀ f ∈ m.kernel.frames, f = errNoMem ∨ 0x400000 ≤ f.toNat

namespace Handed

variable {m m' : KernelMemory}

theorem write (holds : Handed m) (mem : Memory) (pd : U32) :
    Handed { m with kernel := { m.kernel with mem, currentPageDirectory := pd } } :=
  ⟨holds.ordered, holds.sweeping, holds.frames⟩

theorem mmAlloc (holds : Handed m) (fits : m.kernel.mm.mmHeap.toNat + 4 * n.toNat < 2 ^ 32) :
    Handed (m.mmAlloc n).2 := by
  obtain ⟨region, positive, current⟩ := holds.sweeping
  refine ⟨holds.ordered.mmAlloc fits, ⟨region, positive, current.bound, ?_⟩, holds.frames⟩
  rw [KernelMemory.mmAlloc, (mmAlloc_bitmaps n m.kernel.mm).1]
  exact current.full

theorem pageAlloc (holds : Handed m) {phys : U32} (done : m.pageAlloc = some (phys, m')) :
    Handed m' := by
  obtain ⟨⟨a, k⟩, taken, done⟩ := bind_eq_some_iff.mp done
  cases done
  obtain ⟨⟨b, mm⟩, returned, taken⟩ := bind_eq_some_iff.mp taken
  cases taken
  obtain ⟨sweeping, _, new⟩ := kPageAlloc_taken holds.sweeping returned
  obtain ⟨limit, heap⟩ := kPageAlloc_heap returned
  refine ⟨?_, sweeping, fun f member => ?_⟩
  · by_cases swaps : SwapsBitmap m.kernel.mm
    · rw [if_pos swaps] at heap
      rw [if_pos swaps]
      have served := holds.ordered.mmAlloc (holds.ordered.own_request (n := 4 * 32) (by decide))
      exact served.of_heap heap (limit.trans (holds.ordered.limit.trans served.limit.symm))
    · rw [if_neg swaps] at heap
      rw [if_neg swaps]
      exact holds.ordered.of_heap heap limit
  · rcases mem_cons.mp member with rfl | old
    · by_cases isErr : f = errNoMem
      · exact Or.inl isErr
      · exact Or.inr (new isErr).2.page.2
    · exact holds.frames f old

theorem pagingMap (holds : Handed m) (dir phys virt flags : U32) :
    Handed (m.pagingMap dir phys virt flags) := by
  rw [KernelMemory.pagingMap]
  split
  · exact holds.write _ _
  · exact (holds.mmAlloc (holds.ordered.own_request (by decide))).write _ _

theorem mapHeapPage (holds : Handed m) {top : U32} (done : mapHeapPage top m = some m') :
    Handed m' := by
  rw [Crunchy.mapHeapPage] at done
  split at done
  · obtain ⟨⟨phys, middle⟩, taken, done⟩ := bind_eq_some_iff.mp done
    cases done
    exact (holds.pageAlloc taken).pagingMap _ _ _ _
  · cases done
    exact holds

/-- `k_mm_init` on a kernel that ends inside the second megabyte of the window. -/
theorem init {heap : U32} {mem : Memory} {kernelPd currentPd : U32}
    (from1MB : 0xC0100000 ≤ heap.toNat) (below2MB : heap.toNat < 0xC0200000)
    (done : kMmInitMemory heap mem kernelPd currentPd = some m) : Handed m := by
  obtain ⟨⟨first, mm⟩, init, done⟩ := bind_eq_some_iff.mp done
  cases done
  obtain ⟨moved, limit⟩ := kMmInit_heap init
  obtain ⟨current, isFirst, _⟩ := kMmInit_spec init
  have aligned :
      ((heap + 0x1000#32) &&& ~~~0xFFF#32).toNat = (heap.toNat + 4096) / 4096 * 4096 := by
    rw [toNat_and_not_fff, toNat_add_ofNat (n := 4096) (by omega)]
  have bare : HandedRanges (mmBare heap mmHeapMaxBoot) [] := by
    refine ⟨rfl, ?_, ?_, ?_, (fun _ member => nomatch member), List.Pairwise.nil⟩
    all_goals simp only [mmBare, aligned]
    all_goals omega
  have one := bare.mmAlloc (bare.own_request (n := 4 * 32) (by decide))
  have two := one.mmAlloc (one.own_request (n := 4 * 32) (by decide))
  refine ⟨two.of_heap moved (limit.trans two.limit.symm), ⟨1, Nat.le_refl _, current⟩, ?_⟩
  intro f member
  rw [mem_singleton.mp member, isFirst]
  exact Or.inr (by decide)

end Handed

/-! ### Runs of the three allocators -/

/-- The heap over the machine, and what `malloc` and `malloc_a` have returned:
address and bytes asked for. -/
structure MemoryRun where
  heap : Heap (Option KernelMemory)
  returned : List (U32 × U32)

/-- The calls of a run, and whatever other code does to memory and to the current
directory between them. -/
inductive MemoryCall where
  | mmAlloc (n : U32)
  | pageAlloc
  | malloc (n : U32)
  | mallocA (n : U32)
  | other (mem : Memory) (pd : U32)

inductive MemoryStep (writers : Writers) : MemoryRun → MemoryCall → MemoryRun → Prop where
  | mmAlloc {run : MemoryRun} (n : U32) :
      MemoryStep writers run (.mmAlloc n)
        { run with
          heap := { run.heap with world := run.heap.world.map fun m => (m.mmAlloc n).2 } }
  | pageAlloc {run : MemoryRun} :
      MemoryStep writers run .pageAlloc
        { run with
          heap := { run.heap with
            world := run.heap.world.bind fun m => m.pageAlloc.map Prod.snd } }
  | malloc {run : MemoryRun} {n p : U32} {heap : Heap (Option KernelMemory)}
      (done : malloc (memoryEnv writers) n run.heap = some (p, heap)) :
      MemoryStep writers run (.malloc n) { heap, returned := addLive p n run.returned }
  | mallocA {run : MemoryRun} {n p : U32} {heap : Heap (Option KernelMemory)}
      (done : mallocA (memoryEnv writers) n run.heap = some (p, heap)) :
      MemoryStep writers run (.mallocA n) { heap, returned := addLive p n run.returned }
  | other {run : MemoryRun} (mem : Memory) (pd : U32) :
      MemoryStep writers run (.other mem pd)
        { run with
          heap := { run.heap with
            world := run.heap.world.map fun m =>
              { m with kernel := { m.kernel with mem, currentPageDirectory := pd } } } }

/-- Runs from `k_mm_init` and `k_heap_init`, for a kernel that ends in the second
megabyte of the window and any contents of memory. -/
def memorySystem (writers : Writers) : System MemoryRun MemoryCall where
  Start run := ∃ heap mem kernelPd currentPd, 0xC0100000#32 ≤ heap ∧ heap < 0xC0200000#32 ∧
    memoryInit writers heap mem kernelPd currentPd = some run.heap ∧ run.returned = []
  Step := MemoryStep writers

/-- The address sums of a call fit in 32 bits: the word-scaled `MM_HEAP + n` and
every `K_LAST_ALLOC + n`. -/
def AddressSumsFit (writers : Writers) (run : MemoryRun) : MemoryCall → Prop
  | .mmAlloc n => ∀ m, run.heap.world = some m → m.kernel.mm.mmHeap.toNat + 4 * n.toNat < 2 ^ 32
  | .malloc n => SumsBelow (mallocSums n run.heap)
  | .mallocA n => SumsBelow (mallocASums (memoryEnv writers) n run.heap)
  | .pageAlloc => True
  | .other _ _ => True

/-- The invariant of a run; a machine that has met a refused bitmap is lost. -/
structure Separate (run : MemoryRun) : Prop where
  machine : ∀ m, run.heap.world = some m → Handed m
  booked : Booked run.heap
  fromBottom : ∀ block ∈ run.returned, kHeapBottom ≤ block.1

namespace Separate

variable {writers : Writers} {run : MemoryRun}

/-- What the heap does to the machine keeps it in order. -/
theorem keeps (writers : Writers) :
    (memoryEnv writers).Keeps fun world => ∀ m, world = some m → Handed m := by
  constructor
  · intro top world before m isSome
    obtain ⟨middle, isMiddle, mapped⟩ := bind_eq_some_iff.mp isSome
    exact (before middle isMiddle).mapHeapPage mapped
  · intro new old n world before m isSome
    obtain ⟨middle, isMiddle, rfl⟩ := map_eq_some_iff.mp isSome
    exact (before middle isMiddle).write _ _
  · intro buf world before m isSome
    obtain ⟨middle, isMiddle, rfl⟩ := map_eq_some_iff.mp isSome
    exact (before middle isMiddle).write _ _

theorem start (isStart : (memorySystem writers).Start run) : Separate run := by
  obtain ⟨heap, mem, kernelPd, currentPd, from1MB, below2MB, init, none⟩ := isStart
  obtain ⟨memory, booted, init⟩ := bind_eq_some_iff.mp init
  have handed := Handed.init from1MB below2MB booted
  have chain := handed.mmAlloc (handed.ordered.own_request (n := 1024#32 * 4#32) (by decide))
  have isFresh := eq_freshHeap init
  refine ⟨?_, ?_, by simp [none]⟩
  · rw [isFresh]
    exact (keeps writers).backPages _ _ _ fun m isSome => Option.some.inj isSome ▸ chain
  · rw [isFresh]
    exact ⟨rfl, rfl⟩

theorem addLive {p : U32} {blocks : List (U32 × U32)}
    (before : ∀ block ∈ blocks, kHeapBottom ≤ block.1) (pointer : FromBottom p) :
    ∀ block ∈ addLive p n blocks, kHeapBottom ≤ block.1 := by
  rw [Crunchy.addLive]
  split
  · exact before
  · rename_i served
    intro block member
    rcases mem_cons.mp member with rfl | old
    · exact pointer.resolve_left served
    · exact before block old

theorem step (holds : Separate run) (fits : AddressSumsFit writers run call)
    (taken : MemoryStep writers run call after) :
    Separate after := by
  cases taken with
  | mmAlloc n =>
    refine ⟨?_, ⟨holds.booked.last, holds.booked.unlocked⟩, holds.fromBottom⟩
    intro m isSome
    obtain ⟨middle, isMiddle, rfl⟩ := map_eq_some_iff.mp isSome
    exact (holds.machine middle isMiddle).mmAlloc (fits middle isMiddle)
  | pageAlloc =>
    refine ⟨?_, ⟨holds.booked.last, holds.booked.unlocked⟩, holds.fromBottom⟩
    intro m isSome
    obtain ⟨middle, isMiddle, isSome⟩ := bind_eq_some_iff.mp isSome
    obtain ⟨⟨phys, m'⟩, allocated, rfl⟩ := map_eq_some_iff.mp isSome
    exact (holds.machine middle isMiddle).pageAlloc allocated
  | malloc done =>
    obtain ⟨booked, pointer⟩ := holds.booked.malloc fits done
    exact ⟨(keeps writers).changes (.malloc done) holds.machine, booked, addLive holds.fromBottom pointer⟩
  | mallocA done =>
    obtain ⟨booked, pointer⟩ := holds.booked.mallocA fits done
    exact ⟨(keeps writers).changes (.mallocA done) holds.machine, booked, addLive holds.fromBottom pointer⟩
  | other mem pd =>
    refine ⟨?_, ⟨holds.booked.last, holds.booked.unlocked⟩, holds.fromBottom⟩
    intro m isSome
    obtain ⟨middle, isMiddle, rfl⟩ := map_eq_some_iff.mp isSome
    exact (holds.machine middle isMiddle).write _ _

theorem of_reachable
    (reached : ((memorySystem writers).restrict (AddressSumsFit writers)).Reachable run) :
    Separate run :=
  reached.invariant Separate (fun _ isStart => start isStart)
    fun _ _ _ holds taken => holds.step taken.1 taken.2

end Separate

/-- No frame handed out is the frame of a byte `mm_alloc` has handed out. -/
theorem Handed.frames_apart (holds : Handed m) {f : U32} (frame : f ∈ m.kernel.frames)
    {range : U32 × U32} (member : range ∈ m.handed) {a : U32} (low : range.1 ≤ a)
    (high : a.toNat < range.1.toNat + range.2.toNat) :
    f ≠ pageOf (a - kernelVirt) := by
  obtain ⟨_, rangeLow, rangeBelow, _⟩ := holds.ordered.ranges range member
  rw [le_def] at low
  have window : kernelVirt.toNat = 0xC0000000 := rfl
  have offset : (a - kernelVirt).toNat = a.toNat - 0xC0000000 := by
    rw [toNat_sub, window]
    omega
  intro same
  have value := congrArg BitVec.toNat same
  rw [pageOf, toNat_and_not_fff, offset] at value
  rcases holds.frames f frame with isErr | above
  · rw [isErr, errNoMem, toNat_ofNat] at value
    omega
  · omega

/-- The allocators never overlap. In every run in which no address sum wraps, as
long as bitmaps can be allocated: what `mm_alloc` has handed out is page aligned,
disjoint and ends at or below `0xC0300000`, no frame of `k_page_alloc` is the frame
of a byte of it, and what `malloc` and `malloc_a` have returned starts at or above
`0xC0300000`. -/
theorem allocators_apart {writers : Writers} {run : MemoryRun}
    (reached : ((memorySystem writers).restrict (AddressSumsFit writers)).Reachable run) :
    (∀ m, run.heap.world = some m →
      (∀ range ∈ m.handed, range.1.toNat % 0x1000 = 0 ∧
        range.1.toNat + range.2.toNat ≤ 0xC0300000) ∧
      m.handed.Pairwise RangesApart ∧
      ∀ f ∈ m.kernel.frames, ∀ range ∈ m.handed, ∀ a : U32, range.1 ≤ a →
        a.toNat < range.1.toNat + range.2.toNat → f ≠ pageOf (a - kernelVirt)) ∧
    ∀ block ∈ run.returned, 0xC0300000#32 ≤ block.1 := by
  have holds := Separate.of_reachable reached
  refine ⟨fun m isSome => ?_, holds.fromBottom⟩
  have handed := holds.machine m isSome
  refine ⟨fun range member => ?_, handed.ordered.apart, ?_⟩
  · obtain ⟨aligned, _, below, _⟩ := handed.ordered.ranges range member
    exact ⟨aligned, below⟩
  · exact fun f frame range member a low high => handed.frames_apart frame member low high

theorem reachable_memory_call {writers : Writers} {run : MemoryRun}
    (reached : ((memorySystem writers).restrict (AddressSumsFit writers)).Reachable run)
    (taken : MemoryStep writers run call after) (fits : AddressSumsFit writers run call) :
    ((memorySystem writers).restrict (AddressSumsFit writers)).Reachable after := by
  have step : ((memorySystem writers).restrict (AddressSumsFit writers)).Step run call after :=
    ⟨fits, taken⟩
  exact reached.step step

/-- Writers that change nothing. -/
private def idleWriters : Writers where
  memcpy _ _ _ mem := mem
  formatInto _ mem := mem

/-- A machine on which every page is mapped already is not changed. -/
private theorem mapped_keeps (mem : m.kernel.mem = fun _ => 0x3#32) :
    (memoryEnv idleWriters).Keeps fun world => world = some m := by
  constructor
  · rintro top world rfl
    have backed : virtToPhys m.kernel.currentPageDirectory top m.kernel.mem ≠ null := by
      simp [virtToPhys, dirEntry, mem, null]
    exact if_neg backed
  · rintro new old n world rfl
    rfl
  · rintro buf world rfl
    rfl

/-- The machine after the boot, where every page is mapped already. -/
private theorem booted_machine : ∃ m : KernelMemory,
    ((memorySystem idleWriters).restrict (AddressSumsFit idleWriters)).Reachable
        { heap := freshHeap (memoryEnv idleWriters) (some m), returned := [] } ∧
      (freshHeap (memoryEnv idleWriters) (some m)).world = some m ∧
      m.kernel.mm.mmHeap = 0xC010D000#32 ∧ m.kernel.mm.mmHeapMax = 0xC0300000#32 := by
  obtain ⟨memory, booted⟩ := isSome_iff_exists.mp
    (show (kMmInitMemory 0xC0100000#32 (fun _ => 0x3#32) 0#32 0#32).isSome = true by
      decide +kernel)
  obtain ⟨mem, heapAt, limit⟩ : memory.kernel.mem = (fun _ => 0x3#32) ∧
      memory.kernel.mm.mmHeap = 0xC0109000#32 ∧ memory.kernel.mm.mmHeapMax = 0xC0300000#32 := by
    rw [kMmInitMemory] at booted
    obtain ⟨⟨first, mm⟩, init, done⟩ := bind_eq_some_iff.mp booted
    cases done
    obtain ⟨moved, limit⟩ := kMmInit_heap init
    exact ⟨rfl, moved.trans (by decide), limit⟩
  have chain : mmAlloc (1024#32 * 4#32) memory.kernel.mm =
      (0xC0109000#32, { memory.kernel.mm with mmHeap := 0xC010D000#32 }) := by
    rw [mmAlloc, if_neg (by rw [heapAt]; decide), if_pos (by rw [heapAt, limit]; decide),
      if_pos (by decide), heapAt]
    rfl
  generalize isChain : (memory.mmAlloc (1024#32 * 4#32)).2 = m
  obtain ⟨mem, heapAt, limit⟩ : m.kernel.mem = (fun _ => 0x3#32) ∧
      m.kernel.mm.mmHeap = 0xC010D000#32 ∧ m.kernel.mm.mmHeapMax = 0xC0300000#32 := by
    rw [← isChain, KernelMemory.mmAlloc, chain]
    exact ⟨mem, rfl, limit⟩
  refine ⟨m, ?_, (mapped_keeps mem).backPages _ _ _ rfl, heapAt, limit⟩
  refine .start ⟨0xC0100000#32, fun _ => 0x3#32, 0#32, 0#32, by decide, by decide, ?_, rfl⟩
  rw [memoryInit, booted]
  simp only [bind_eq_bind, bind_some, isChain]
  exact kHeapInit_eq _ _

/-- After the boot, `malloc(100)` and `mm_alloc(0x1001)`. -/
theorem boot_allocations_apart : ∃ run m,
    ((memorySystem idleWriters).restrict (AddressSumsFit idleWriters)).Reachable run ∧
      run.heap.world = some m ∧ (0xC0300000#32, 100#32) ∈ run.returned ∧
      (0xC010D000#32, 0x1001#32) ∈ m.handed ∧ m.handed.Pairwise RangesApart ∧
      ∀ block ∈ run.returned, 0xC0300000#32 ≤ block.1 := by
  obtain ⟨m, starts, world, heapAt, limit⟩ := booted_machine
  -- `malloc(100)`
  have noFit : findBestFree 100#32 [] = some none := by decide
  have growth : topAfter 100#32 (freshHeap (memoryEnv idleWriters) (some m)) =
      some 0xC0310000#32 := if_neg (show ¬ 0xC0310000#32 ≤ kHeapBottom + 100#32 by decide)
  obtain ⟨notes, served, _⟩ := malloc_new (memoryEnv idleWriters) (by decide) rfl noFit
    (Nat.zero_le _) growth
  rw [show (freshHeap (memoryEnv idleWriters) (some m)).kHeapTop = 0xC0310000#32 from rfl,
    backTo_self, world] at served
  have fits : SumsBelow (mallocSums 100#32 (freshHeap (memoryEnv idleWriters) (some m))) := by
    intro sum member
    rw [mallocSums] at member
    split at member
    · rw [mem_singleton.mp member]
      show kHeapBottom.toNat + (100#32).toNat < 2 ^ 32
      decide
    · cases member
  have allocated := reachable_memory_call starts (MemoryStep.malloc served) fits
  -- `mm_alloc(0x1001)`
  have handed := reachable_memory_call allocated (MemoryStep.mmAlloc 0x1001#32) (by
    intro m' isSome
    cases isSome
    rw [heapAt]
    decide)
  obtain ⟨apart, blocks⟩ := allocators_apart handed
  obtain ⟨_, disjoint, _⟩ := apart _ rfl
  refine ⟨_, _, handed, rfl, ?_, ?_, disjoint, blocks⟩
  · exact mem_cons_self ..
  · have address : (mmAlloc 0x1001#32 m.kernel.mm).1 = 0xC010D000#32 := by
      rw [mmAlloc, if_neg (by rw [heapAt]; decide), if_pos (by rw [heapAt, limit]; decide),
        if_pos (by decide), heapAt]
    have record : (KernelMemory.mmAlloc 0x1001#32 m).2.handed =
        addHanded (mmAlloc 0x1001#32 m.kernel.mm).1 0x1001#32 m.handed := rfl
    rw [record, address]
    exact mem_cons_self ..

end Crunchy
