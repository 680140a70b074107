/-
Module: Crunchy.Mem.PageActs
Purpose: The four loops of the kernel that map fresh pages, with a record of what
  each round does: `sbrk`, `sys_sbrk`, `_paging_map_more` and `k_create_pagedir`.
Trusted boundary: human-reviewed spec
Main exports: PageAct, Acting, Acting.backPage, Acting.mapPages, Acting.sysSbrk, actingEnv
-/
import Crunchy.Mem.Allocators
import Crunchy.Process.UserHeap

namespace Crunchy

open Lib Option

/-- What a round of a mapping loop does: `k_page_alloc` returns a value, a
page-table entry is written, a break moves over the page at an address. -/
inductive PageAct where
  | alloc (phys : U32)
  | map (dir phys virt : U32)
  | advance (virt : U32)
deriving DecidableEq

/-- The kernel and what its mapping loops have done so far, oldest first. The kernel
is lost once `mm_alloc` has returned `NULL` for a bitmap or a table. -/
structure Acting where
  acts : List PageAct
  kernel : Option Kernel

namespace Acting

/-- A part of the code that maps no page. -/
def lift (f : Kernel → Option Kernel) (a : Acting) : Acting :=
  { a with kernel := a.kernel.bind f }

/-- `_paging_map(dir, k_page_alloc(), virt, flags)`: the value is not looked at. -/
def backPage (dir virt flags : U32) (a : Acting) : Acting :=
  match a.kernel with
  | none => a
  | some k =>
    match k.pageAlloc with
    | none => { a with kernel := none }
    | some (phys, k) =>
      { acts := a.acts ++ [.alloc phys, .map dir phys virt]
        kernel := k.pagingMap dir phys virt flags }

/-- A break moves over the page at `virt`. -/
def advance (virt : U32) (a : Acting) : Acting :=
  match a.kernel with
  | none => a
  | some _ => { a with acts := a.acts ++ [.advance virt] }

/-- The loop that `_paging_map_more` and `k_create_pagedir` share. -/
def mapPages (dir flags : U32) : Nat → U32 → Acting → Acting
  | 0, _, a => a
  | left + 1, virt, a => mapPages dir flags left (virt + 0x1000#32) (a.backPage dir virt flags)

/-- The loop of `sys_sbrk`. -/
def sysSbrkLoop (pd : U32) : Nat → Int → U32 → Acting → Acting
  | 0, _, _, a => { a with kernel := none }
  | rounds + 1, i, brk, a =>
    if 0 < i then
      sysSbrkLoop pd rounds (i - 0x1000) (brk + 0x1000#32)
        ((a.backPage pd brk 0x7#32).advance brk)
    else a

/-- `sys_sbrk(m, n)`. -/
def sysSbrk (m : ProcMmap) (n : U32) (a : Acting) : Acting :=
  sysSbrkLoop m.pd (2 ^ 19 + 1) n.toInt m.brk a

/-- `_paging_map_more(pd, virt, numpages, flags)`. -/
def pagingMapMore (pd virt numpages flags : U32) (a : Acting) : Acting :=
  if pd = null then a
  else
    (a.lift fun k => some (preallocateMore pd virt numpages flags k)).mapPages pd flags
      numpages.toNat virt

/-- The two slots `k_create_pagedir` fills at the end. -/
def lastSlots (pd : U32) (k : Kernel) : Kernel :=
  let mem := Function.update k.mem (cell pd 1022#32) (v2p k.kernelPageDirectory ||| 0x3#32)
  { k with mem := Function.update mem (cell pd 1023#32) (v2p pd ||| 0x3#32) }

/-- `k_create_pagedir(virt, numpages, flags)`. -/
def kCreatePagedir (virt numpages flags : U32) (a : Acting) : Acting :=
  match a.kernel with
  | none => a
  | some k =>
    let (pd, mm) := mmAlloc 0x1000#32 k.mm
    if pd = null then { a with kernel := none }
    else
      ((a.lift fun k => preallocate pd virt numpages flags { k with mm }).mapPages pd flags
        numpages.toNat virt).lift fun k => some (lastSlots pd k)

/-- One round of the loop in `sbrk`: back the page at `top`, unless it is backed
already, and move `K_HEAP_TOP` over it. -/
def sbrkRound (top : U32) (a : Acting) : Acting :=
  match a.kernel with
  | none => a
  | some k =>
    if virtToPhys k.currentPageDirectory top k.mem = null then
      (a.backPage k.currentPageDirectory top 0x3#32).advance top
    else a.advance top

/-- A change to the words of memory alone. -/
def write (change : Memory → Memory) (a : Acting) : Acting :=
  a.lift fun k => some { k with mem := change k.mem }

end Acting

/-- The heap's effects, with a record of its pages. -/
def actingEnv (writers : Writers) : HeapEnv Acting where
  mapHeapPage := Acting.sbrkRound
  memcpy new old n := Acting.write (writers.memcpy new old n)
  formatInto buf := Acting.write (writers.formatInto buf)

/-! ### The record aside, the loops are those of the kernel -/

namespace Acting

/-- One round: a page is allocated and mapped. -/
def freshPage (dir virt flags : U32) (k : Kernel) : Option Kernel := do
  let (phys, k) ← k.pageAlloc
  k.pagingMap dir phys virt flags

theorem mapFresh_succ (dir flags : U32) (left : Nat) (virt : U32) (k : Kernel) :
    mapFresh dir flags (left + 1) virt k =
      (freshPage dir virt flags k).bind (mapFresh dir flags left (virt + 0x1000#32)) := by
  rw [mapFresh, freshPage]
  cases k.pageAlloc <;> rfl

theorem backPage_kernel (dir virt flags : U32) (a : Acting) :
    (a.backPage dir virt flags).kernel = a.kernel.bind (freshPage dir virt flags) := by
  obtain ⟨acts, kernel⟩ := a
  cases kernel with
  | none => rfl
  | some k =>
    simp only [backPage, bind_some, freshPage]
    cases k.pageAlloc <;> rfl

@[simp] theorem advance_kernel (virt : U32) (a : Acting) : (a.advance virt).kernel = a.kernel := by
  obtain ⟨acts, kernel⟩ := a
  cases kernel <;> rfl

theorem mapPages_kernel (dir flags : U32) (left : Nat) : ∀ (virt : U32) (a : Acting),
    (a.mapPages dir flags left virt).kernel = a.kernel.bind (mapFresh dir flags left virt) := by
  induction left with
  | zero =>
    rintro virt ⟨acts, kernel⟩
    cases kernel <;> rfl
  | succ left ih =>
    intro virt a
    rw [mapPages, ih, backPage_kernel, bind_assoc]
    exact congrArg a.kernel.bind (funext fun k => (mapFresh_succ dir flags left virt k).symm)

theorem sysSbrkLoop_kernel (pd : U32) (rounds : Nat) : ∀ (i : Int) (brk : U32) (a : Acting),
    (a.sysSbrkLoop pd rounds i brk).kernel =
      a.kernel.bind fun k => (Crunchy.sysSbrkLoop pd rounds i brk k).map Prod.snd := by
  induction rounds with
  | zero =>
    rintro i brk ⟨acts, kernel⟩
    cases kernel <;> rfl
  | succ rounds ih =>
    intro i brk a
    rw [sysSbrkLoop]
    simp only [Crunchy.sysSbrkLoop]
    split
    · rw [ih, advance_kernel, backPage_kernel, bind_assoc]
      refine congrArg a.kernel.bind (funext fun k => ?_)
      rw [freshPage]
      cases k.pageAlloc with
      | none => rfl
      | some result =>
        simp only [bind_eq_bind, bind_some]
        cases result.2.pagingMap pd result.1 brk 0x7#32 <;> rfl
    · cases a.kernel <;> rfl

theorem sysSbrk_kernel (m : ProcMmap) (n : U32) (a : Acting) :
    (a.sysSbrk m n).kernel = a.kernel.bind fun k => (Crunchy.sysSbrk m n k).map Prod.snd := by
  rw [sysSbrk, sysSbrkLoop_kernel]
  refine congrArg a.kernel.bind (funext fun k => ?_)
  rw [Crunchy.sysSbrk]
  cases Crunchy.sysSbrkLoop m.pd (2 ^ 19 + 1) n.toInt m.brk k <;> rfl

theorem pagingMapMore_kernel (pd virt numpages flags : U32) (a : Acting) :
    (a.pagingMapMore pd virt numpages flags).kernel =
      a.kernel.bind (Crunchy.pagingMapMore pd virt numpages flags) := by
  rw [pagingMapMore]
  by_cases noDir : pd = null
  · have same : Crunchy.pagingMapMore pd virt numpages flags = some :=
      funext fun k => if_pos noDir
    rw [if_pos noDir, same]
    cases a.kernel <;> rfl
  · rw [if_neg noDir, mapPages_kernel, lift, bind_assoc]
    exact congrArg a.kernel.bind (funext fun k => (if_neg noDir).symm)

theorem kCreatePagedir_kernel (virt numpages flags : U32) (a : Acting) :
    (a.kCreatePagedir virt numpages flags).kernel =
      a.kernel.bind fun k => (Crunchy.kCreatePagedir virt numpages flags k).map Prod.snd := by
  obtain ⟨acts, kernel⟩ := a
  cases kernel with
  | none => rfl
  | some k =>
    simp only [kCreatePagedir, Crunchy.kCreatePagedir, bind_some]
    by_cases refused : (mmAlloc 0x1000#32 k.mm).1 = null
    · simp only [if_pos refused, map_none]
    · simp only [if_neg refused]
      rw [lift, mapPages_kernel, lift, bind_some, bind_eq_bind]
      cases preallocate (mmAlloc 0x1000#32 k.mm).1 virt numpages flags
        { k with mm := (mmAlloc 0x1000#32 k.mm).2 } with
      | none => rfl
      | some made =>
        simp only [bind_some]
        cases mapFresh (mmAlloc 0x1000#32 k.mm).1 flags numpages.toNat virt made <;> rfl

end Acting

end Crunchy
