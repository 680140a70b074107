/-
Module: Crunchy.Mem.AddressSpace
Purpose: Whole address spaces of `kernel/mem/paging.c`: the kernel's memory
  management as one state, mapping with the tables its own `mm_alloc` supplies,
  and the construction of a directory by `k_create_pagedir` and `k_map_kernel`.
Trusted boundary: human-reviewed spec
Main exports: Kernel, mapFresh, kMapKernel, pagingMapMore, kCreatePagedir, kSwapPd, freePagedir
-/
import Crunchy.Mem.Mm
import Crunchy.Mem.Paging

namespace Crunchy

open Lib

/-- The kernel's memory management: the allocators, the words of the kernel window
by their virtual address, and the two directories `paging.c` knows. `frames` is no
variable of the source: it records what `k_page_alloc` has returned, newest
first. -/
structure Kernel where
  mm : Mm
  mem : Memory
  kernelPageDirectory : U32
  currentPageDirectory : U32
  frames : List U32

/-- `k_page_alloc()`. -/
def Kernel.pageAlloc (k : Kernel) : Option (U32 × Kernel) := do
  let (phys, mm) ← kPageAlloc k.mm
  some (phys, { k with mm, frames := phys :: k.frames })

/-- `_paging_map(dir, phys, virt, flags)`. `none` where a table is needed and
`mm_alloc` returns `NULL`, through which the source then writes. -/
def Kernel.pagingMap (dir phys virt flags : U32) (k : Kernel) : Option Kernel :=
  if dirEntry dir virt k.mem &&& ~~~0x3FF#32 ≠ 0#32 then
    some { k with mem := Crunchy.pagingMap null dir phys virt flags k.mem }
  else
    let (pt, mm) := mmAlloc 0x1000#32 k.mm
    if pt = null then none
    else some { k with mm, mem := Crunchy.pagingMap pt dir phys virt flags k.mem }

/-- `k_paging_map(phys, virt, flags)`. -/
def kPagingMap (phys virt flags : U32) (k : Kernel) : Option Kernel :=
  k.pagingMap k.currentPageDirectory phys virt flags

/-- `k_swap_pd(pd)`. -/
def kSwapPd (pd : U32) (k : Kernel) : Kernel :=
  { k with currentPageDirectory := pd }

/-- A frame from `k_page_alloc()` for each of the next `left` pages from `virt` on.
What `k_page_alloc` returns is mapped unseen, `ERR_NO_MEM` too: where the source
looks, for zero, its `panic` prints a line and goes on. -/
def mapFresh (dir flags : U32) : Nat → U32 → Kernel → Option Kernel
  | 0, _, k => some k
  | left + 1, virt, k => do
      let (phys, k) ← k.pageAlloc
      let k ← k.pagingMap dir phys virt flags
      mapFresh dir flags left (virt + 0x1000#32) k

/-- The loop of `k_map_kernel`, `left` rounds before `i` reaches `0x00400000`. -/
def kMapKernelLoop (pd : U32) : Nat → U32 → Kernel → Option Kernel
  | 0, _, k => some k
  | left + 1, i, k => do
      let k ← k.pagingMap pd i (i + kernelVirt) 0x3#32
      kMapKernelLoop pd left (i + 0x1000#32) k

/-- `k_map_kernel(pd)`. -/
def kMapKernel (pd : U32) (k : Kernel) : Option Kernel :=
  kMapKernelLoop pd 0x400 0#32 k

/-- The loop of `k_create_pagedir` that allocates tables ahead, `left` rounds
before `i` reaches `page_tables_needed`. It looks at no slot before it writes it. -/
def tablesAhead (pd virt flags : U32) : Nat → U32 → Kernel → Option Kernel
  | 0, _, k => some k
  | left + 1, i, k =>
    let pdi := pdiOf (virt + i * 0x1000#32 * 0x400#32)
    let (pt, mm) := mmAlloc 0x1000#32 k.mm
    if pt = null then none
    else
      tablesAhead pd virt flags left (i + 1#32)
        { k with mm, mem := Function.update k.mem (cell pd pdi) (v2p pt ||| flags) }

/-- The tables `k_create_pagedir` allocates ahead, where there are more than 1024
pages to map. -/
def preallocate (pd virt numpages flags : U32) (k : Kernel) : Option Kernel :=
  if 1024#32 < numpages then
    tablesAhead pd virt flags (numpages / 1024#32 + 1#32).toNat 0#32 k
  else some k

/-- The loop of `_paging_map_more` that allocates tables ahead, `left` rounds before
`i` reaches `page_tables_needed`. It tests slot `i` and writes the slot of the `i`-th
4 MB from `virt` on; subtracting `KERNEL_VIRT` from a `uint32_t*` moves it by a
multiple of `2 ^ 32` bytes, so the entry holds the address `mm_alloc` returned. -/
def tablesMore (pd virt flags : U32) : Nat → U32 → Kernel → Kernel
  | 0, _, k => k
  | left + 1, i, k =>
    if k.mem (cell pd i) &&& ~~~0x3FF#32 ≠ 0#32 then
      tablesMore pd virt flags left (i + 1#32) k
    else
      let pdi := pdiOf (virt + i * 0x1000#32 * 0x400#32)
      let (pt, mm) := mmAlloc 0x1000#32 k.mm
      let pt := pt - 4 * kernelVirt
      tablesMore pd virt flags left (i + 1#32)
        { k with mm, mem := Function.update k.mem (cell pd pdi) (pt ||| flags) }

/-- The tables `_paging_map_more` allocates ahead. -/
def preallocateMore (pd virt numpages flags : U32) (k : Kernel) : Kernel :=
  if 1024#32 < numpages then
    tablesMore pd virt flags (numpages / 1024#32 + 1#32).toNat 0#32 k
  else k

/-- `_paging_map_more(pd, virt, numpages, flags)`. A `NULL` directory is reported and
nothing is mapped. -/
def pagingMapMore (pd virt numpages flags : U32) (k : Kernel) : Option Kernel :=
  if pd = null then some k
  else mapFresh pd flags numpages.toNat virt (preallocateMore pd virt numpages flags k)

/-- `k_create_pagedir(virt, numpages, flags)`. -/
def kCreatePagedir (virt numpages flags : U32) (k : Kernel) : Option (U32 × Kernel) :=
  let (pd, mm) := mmAlloc 0x1000#32 k.mm
  if pd = null then none
  else do
    let k ← preallocate pd virt numpages flags { k with mm }
    let k ← mapFresh pd flags numpages.toNat virt k
    let mem := Function.update k.mem (cell pd 1022#32) (v2p k.kernelPageDirectory ||| 0x3#32)
    let mem := Function.update mem (cell pd 1023#32) (v2p pd ||| 0x3#32)
    some (pd, { k with mem })

/-! ### Taking an address space down -/

/-- `k_page_free(addr)`. -/
def Kernel.pageFree (addr : U32) (k : Kernel) : Kernel :=
  { k with mm := (kPageFree addr k.mm).2 }

/-- The inner loop of `free_pagedir`, `left` rounds before `q` reaches 1024. The
source reads the table at its physical address, through the identity map of the
first 4 MB; the same words stand in the kernel window. -/
def freeTableLoop (pt : U32) : Nat → U32 → Kernel → Kernel
  | 0, _, k => k
  | left + 1, q, k =>
    let page := k.mem (cell (p2v pt) q) &&& ~~~0x3FF#32
    if 0x00400000#32 < page then freeTableLoop pt left (q + 1#32) (k.pageFree page)
    else freeTableLoop pt left (q + 1#32) k

/-- The outer loop of `free_pagedir`, `left` rounds before `i` reaches 1024. -/
def freePagedirLoop (pd : U32) : Nat → U32 → Kernel → Kernel
  | 0, _, k => k
  | left + 1, i, k =>
    let pt := k.mem (cell pd i) &&& ~~~0x3FF#32
    if pt ≠ 0#32 then
      freePagedirLoop pd left (i + 1#32) ((freeTableLoop pt 1024 0#32 k).pageFree pt)
    else freePagedirLoop pd left (i + 1#32) k

/-- `free_pagedir(pd)`. -/
def freePagedir (pd : U32) (k : Kernel) : Kernel :=
  (freePagedirLoop pd 1024 0#32 k).pageFree pd

end Crunchy
