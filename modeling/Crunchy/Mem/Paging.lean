/-
Module: Crunchy.Mem.Paging
Purpose: Page directories and page tables of `kernel/mem/paging.c`, in the flat
  memory the kernel sees through its window, and the x86 walk that gives a
  directory its meaning.
Trusted boundary: human-reviewed spec
Main exports: Memory, pagingMap, mapOnDemand, virtToPhys, physToVirt, pagingUnmap,
  effective
-/
import Crunchy.Types
import Crunchy.Lib.WordArrays
import Mathlib.Tactic.NormNum

namespace Crunchy

open Lib

/-- The words of memory by their virtual address. -/
abbrev Memory := U32 → U32

/-- `PF_PRESENT`. -/
def pfPresent : U32 := 0x1#32

/-- `_pdi`: the directory slot of a virtual address. -/
def pdiOf (virt : U32) : U32 := virt >>> 22

/-- `_pti`: the page-table slot of a virtual address. -/
def ptiOf (virt : U32) : U32 := (virt >>> 12) &&& 0x3FF#32

/-- `dir[_pdi]`. -/
def dirEntry (dir virt : U32) (mem : Memory) : U32 :=
  mem (cell dir (pdiOf virt))

/-- The page table `_paging_map` works on: the one the directory entry names, or
else `page`, the result of `mm_alloc(0x1000)`. -/
def tableFor (page dir virt : U32) (mem : Memory) : U32 :=
  if dirEntry dir virt mem &&& ~~~0x3FF#32 ≠ 0#32 then
    p2v (dirEntry dir virt mem &&& ~~~0x3FF#32)
  else page

/-- `_paging_map(dir, phys, virt, flags)`, where `page` is what `mm_alloc(0x1000)`
returns should the call come to it. The directory entry is written on every
call, with the flags of this call. -/
def pagingMap (page dir phys virt flags : U32) (mem : Memory) : Memory :=
  let pt := tableFor page dir virt mem
  let mem := Function.update mem (cell pt (ptiOf virt)) (phys ||| flags)
  Function.update mem (cell dir (pdiOf virt)) (v2p pt ||| flags)

/-- `_map_on_demand(dir, virt, flags)`. -/
def mapOnDemand (page dir virt flags : U32) (mem : Memory) : Memory :=
  let flags := flags &&& ~~~pfPresent
  let flags := flags ||| 0x200#32
  pagingMap page dir 0xDEAD0000#32 virt flags mem

/-- `_virt_to_phys(dir, virt)`. In the guard `!` binds tighter than `&`, so it
masks a truth value and is never taken. -/
def virtToPhys (dir virt : U32) (mem : Memory) : U32 :=
  let isZero : U32 := if dirEntry dir virt mem = 0#32 then 1#32 else 0#32
  if isZero &&& ~~~0x3FF#32 ≠ 0#32 then null
  else
    let pt := p2v (dirEntry dir virt mem &&& ~~~0x3FF#32)
    mem (cell pt (ptiOf virt))

/-- The 32 bits at an address of any alignment, low byte first. -/
def loadWord (mem : Memory) (a : U32) : U32 :=
  let word := a &&& ~~~3#32
  let shift := 8 * (a.toNat % 4)
  (mem word >>> shift) ||| (mem (word + 4#32) <<< (32 - shift))

/-- The same at a physical address, through the identity map of low memory; the kernel
window shows this memory from `KERNEL_VIRT` on. -/
def lowWord (mem : Memory) (a : U32) : U32 := loadWord mem (a + kernelVirt)

/-- One round of the outer loop of `_phys_to_virt`: the value it returns, if it does. The
directory entry is used as the table's address as it stands, with its flags. -/
def physToVirtSlot (pd phys : U32) (mem : Memory) (i : Nat) : Option U32 :=
  let pt := mem (cell pd (BitVec.ofNat 32 i))
  if pt &&& ~~~0x3FF#32 ≠ 0#32 then
    (List.range 1024).findSome? fun q =>
      let entry := lowWord mem (cell pt (BitVec.ofNat 32 q))
      if entry &&& ~~~0x3FF#32 ≠ 0#32 ∧ entry &&& ~~~0x3FF#32 = phys &&& ~~~0x3FF#32 then
        some ((BitVec.ofNat 32 i <<< 22) + (BitVec.ofNat 32 q <<< 12))
      else none
  else none

/-- `_phys_to_virt(pd, phys)`. -/
def physToVirt (pd phys : U32) (mem : Memory) : U32 :=
  ((List.range 1024).findSome? (physToVirtSlot pd phys mem)).getD 0#32

/-- `_paging_unmap(dir, virt)`: the value returned and the memory then. The entry is
cleared at the address that the directory entry holds, which is a physical one:
`P2V` is not applied. -/
def pagingUnmap (dir virt : U32) (mem : Memory) : U32 × Memory :=
  if dirEntry dir virt mem &&& ~~~0x3FF#32 ≠ 0#32 then
    let pt := dirEntry dir virt mem &&& ~~~0x3FF#32
    (1#32, Function.update mem (cell pt (ptiOf virt)) 0#32)
  else (0#32, mem)

/-! ### What a directory means to the processor -/

/-- The outcome of the two-level walk for one page. -/
structure Effective where
  present : Bool
  writable : Bool
  user : Bool
  frame : U32
deriving DecidableEq

/-- The page-table entry the walk reads; an empty directory entry has no table. -/
def walkEntry (dir virt : U32) (mem : Memory) : U32 :=
  if dirEntry dir virt mem = 0#32 then 0#32
  else mem (cell (p2v (dirEntry dir virt mem &&& ~~~0xFFF#32)) (ptiOf virt))

/-- The x86 walk: each permission is granted when the directory entry and the
table entry both grant it. -/
def effective (dir virt : U32) (mem : Memory) : Effective :=
  let pde := dirEntry dir virt mem
  let pte := walkEntry dir virt mem
  { present := pde.getLsbD 0 && pte.getLsbD 0
    writable := pde.getLsbD 1 && pte.getLsbD 1
    user := pde.getLsbD 2 && pte.getLsbD 2
    frame := pte >>> 12 }

/-! ### Slots as numbers -/

theorem toNat_pdiOf (virt : U32) : (pdiOf virt).toNat = virt.toNat / 4194304 :=
  toNat_ushiftRight_div virt 22

theorem toNat_ptiOf (virt : U32) : (ptiOf virt).toNat = virt.toNat / 4096 % 1024 := by
  rw [ptiOf, toNat_and_3ff, toNat_ushiftRight_div virt 12]
  norm_num

theorem toNat_pdiOf_lt (virt : U32) : (pdiOf virt).toNat < 1024 := by
  rw [toNat_pdiOf]
  omega

theorem toNat_ptiOf_lt (virt : U32) : (ptiOf virt).toNat < 1024 := by
  rw [toNat_ptiOf]
  omega

end Crunchy
