/-
Module: Crunchy.Mem.Allocators
Purpose: The three allocators of the kernel together, as `kernel_initialize` starts
  them: `mm_alloc`, the page allocator and the heap, which backs its pages through
  the other two.
Trusted boundary: human-reviewed spec
Main exports: KernelMemory, mapHeapPage, memoryEnv, kMmInitMemory, memoryInit
-/
import Crunchy.Mem.AddressSpace
import Crunchy.Mem.Malloc

namespace Crunchy

open Lib

/-- The kernel, with a record of the ranges `mm_alloc` has handed out: address and
bytes asked for, newest first. -/
structure KernelMemory where
  kernel : Kernel
  handed : List (U32 × U32)

/-- The record after a call `mm_alloc(n)` that returned `a`. -/
def addHanded (a n : U32) (handed : List (U32 × U32)) : List (U32 × U32) :=
  if a = null then handed else (a, n) :: handed

namespace KernelMemory

/-- `mm_alloc(n)`. -/
def mmAlloc (n : U32) (m : KernelMemory) : U32 × KernelMemory :=
  let (a, mm) := Crunchy.mmAlloc n m.kernel.mm
  (a, { kernel := { m.kernel with mm }, handed := addHanded a n m.handed })

/-- `k_page_alloc()`, which asks `mm_alloc` for a bitmap where the region is full. -/
def pageAlloc (m : KernelMemory) : Option (U32 × KernelMemory) := do
  let (phys, kernel) ← m.kernel.pageAlloc
  let handed :=
    if SwapsBitmap m.kernel.mm then
      addHanded (Crunchy.mmAlloc (4 * 32) m.kernel.mm).1 (4 * 32) m.handed
    else m.handed
  some (phys, { kernel, handed })

/-- `_paging_map(dir, phys, virt, flags)`. Where `mm_alloc` has no table to give,
the entry is written through `NULL`: a fault, or a write to low memory after which
the call returns as after any other. -/
def pagingMap (dir phys virt flags : U32) (m : KernelMemory) : KernelMemory :=
  if dirEntry dir virt m.kernel.mem &&& ~~~0x3FF#32 ≠ 0#32 then
    { m with
      kernel := { m.kernel with
        mem := Crunchy.pagingMap null dir phys virt flags m.kernel.mem } }
  else
    let (pt, m) := m.mmAlloc 0x1000#32
    { m with
      kernel := { m.kernel with
        mem := Crunchy.pagingMap pt dir phys virt flags m.kernel.mem } }

end KernelMemory

/-- One round of the loop in `sbrk`: back the page at `top`, unless
`k_virt_to_phys` finds it backed. `none` once a bitmap was refused, where the
source clears memory through `NULL`. -/
def mapHeapPage (top : U32) (m : KernelMemory) : Option KernelMemory :=
  let dir := m.kernel.currentPageDirectory
  if virtToPhys dir top m.kernel.mem = null then do
    let (phys, m) ← m.pageAlloc
    some (m.pagingMap dir phys top 0x3#32)
  else some m

/-- What `memcpy` and `vsnprintf` do to the words of memory. -/
structure Writers where
  memcpy : U32 → U32 → U32 → Memory → Memory
  formatInto : U32 → Memory → Memory

/-- A change to the words of memory alone. -/
def KernelMemory.write (change : Memory → Memory) (m : KernelMemory) : KernelMemory :=
  { m with kernel := { m.kernel with mem := change m.kernel.mem } }

/-- The heap's effects on the machine. -/
def memoryEnv (writers : Writers) : HeapEnv (Option KernelMemory) where
  mapHeapPage top world := world.bind (mapHeapPage top)
  memcpy new old n world := world.map (KernelMemory.write (writers.memcpy new old n))
  formatInto buf world := world.map (KernelMemory.write (writers.formatInto buf))

/-- `MM_HEAP_MAX`. -/
def mmHeapMaxBoot : U32 := 0xC0300000#32

/-- `k_mm_init(heap)` on a machine whose memory holds `mem`: two bitmaps and a page. -/
def kMmInitMemory (heap : U32) (mem : Memory) (kernelPd currentPd : U32) : Option KernelMemory := do
  let (first, mm) ← kMmInit heap mmHeapMaxBoot
  let (pd, one) := mmAlloc (4 * 32) (mmBare heap mmHeapMaxBoot)
  let (pt, _) := mmAlloc (4 * 32) one
  some
    { kernel :=
        { mm, mem
          kernelPageDirectory := kernelPd
          currentPageDirectory := currentPd
          frames := [first] }
      handed := addHanded pt (4 * 32) (addHanded pd (4 * 32) []) }

/-- `k_mm_init(heap)` and `k_heap_init()`, which takes the chain of `MAX_BLOCKS`
words from `mm_alloc` before it makes the heap. -/
def memoryInit (writers : Writers) (heap : U32) (mem : Memory) (kernelPd currentPd : U32) :
    Option (Heap (Option KernelMemory)) := do
  let memory ← kMmInitMemory heap mem kernelPd currentPd
  let (_, memory) := memory.mmAlloc (1024#32 * 4#32)
  kHeapInit (memoryEnv writers) (some memory)

/-! ### The record aside, the machine is the kernel -/

theorem KernelMemory.pageAlloc_kernel (m : KernelMemory) :
    m.pageAlloc.map (fun result => (result.1, result.2.kernel)) = m.kernel.pageAlloc := by
  rw [KernelMemory.pageAlloc]
  cases m.kernel.pageAlloc <;> rfl

/-- Where `_paging_map` does not write through `NULL`, it is the kernel's. -/
theorem KernelMemory.pagingMap_kernel {dir phys virt flags : U32} {m : KernelMemory} {k : Kernel}
    (done : m.kernel.pagingMap dir phys virt flags = some k) :
    (m.pagingMap dir phys virt flags).kernel = k := by
  rw [Kernel.pagingMap] at done
  rw [KernelMemory.pagingMap]
  split at done
  · rename_i named
    rw [if_pos named]
    exact Option.some.inj done
  · rename_i empty
    rw [if_neg empty]
    dsimp only at done
    split at done
    · cases done
    · exact Option.some.inj done

end Crunchy
