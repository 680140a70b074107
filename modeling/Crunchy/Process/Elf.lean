/-
Module: Crunchy.Process.Elf
Purpose: The program loader of `kernel/elf.c`: the program header table, the loop
  that maps, clears and fills each segment, and what `elf_load` sets up around it.
Trusted boundary: human-reviewed spec
Main exports: Phdr, ElfMachine, segmentPages, loadSegments, elfPrepare, breakBase,
  elfLoad, ProcMmap
-/
import Crunchy.Lib.Bytes
import Crunchy.Mem.AddressSpace

namespace Crunchy

open Lib

/-! ### The file in memory -/

/-- The bytes of memory from the address `p` on. -/
def bytesFrom (window : U32 → BitVec 8) (p : U32) : Bytes :=
  fun i => window (p + BitVec.ofNat 32 i)

/-- The fields of an `elf32_phdr` that are more than printed. -/
structure Phdr where
  pOffset : U32
  pVaddr : U32
  pFilesz : U32
  pMemsz : U32
deriving DecidableEq

/-- The `elf32_phdr` at the address `p`. -/
def phdrAt (window : U32 → BitVec 8) (p : U32) : Phdr where
  pOffset := get32 (bytesFrom window p) 4
  pVaddr := get32 (bytesFrom window p) 8
  pFilesz := get32 (bytesFrom window p) 16
  pMemsz := get32 (bytesFrom window p) 20

/-- `ehdr->e_entry`. -/
def eEntry (window : U32 → BitVec 8) (data : U32) : U32 :=
  get32 (bytesFrom window data) 24

/-- `phdr` before the loop: `data + e_phoff`. -/
def firstPhdr (window : U32 → BitVec 8) (data : U32) : U32 :=
  data + get32 (bytesFrom window data) 28

/-- `last_phdr` before the loop, `e_phentsize * e_phnum` bytes on. -/
def lastPhdr (window : U32 → BitVec 8) (data : U32) : U32 :=
  firstPhdr window data +
    (get16 (bytesFrom window data) 42).zeroExtend 32 *
      (get16 (bytesFrom window data) 44).zeroExtend 32

/-- The headers `while (phdr < last_phdr) ... phdr++` comes to; a step is the size of
an `elf32_phdr`, whatever `e_phentsize` says. `none` when the loop never ends. -/
def phdrsFrom (window : U32 → BitVec 8) (last : U32) : Nat → U32 → Option (List Phdr)
  | 0, _ => none
  | rounds + 1, phdr =>
    if phdr < last then
      (phdrsFrom window last rounds (phdr + 32#32)).map (phdrAt window phdr :: ·)
    else some []

/-- The headers of a file. After `2 ^ 27` steps the pointer is back where it was. -/
def elfPhdrs (window : U32 → BitVec 8) (data : U32) : Option (List Phdr) :=
  phdrsFrom window (lastPhdr window data) (2 ^ 27 + 1) (firstPhdr window data)

/-! ### Memory through the directory -/

/-- The machine the loader works on. `ram` holds the bytes of the frames
`k_page_alloc` hands out, by physical address; those lie above 4 MB and what the
kernel keeps in its window lies below, so `window`, its bytes by virtual address,
stays as it is while a program is loaded. -/
structure ElfMachine where
  kernel : Kernel
  ram : U32 → BitVec 8
  window : U32 → BitVec 8

/-- The physical address the processor finds for `v` in the current directory;
`none` is a page fault, where the kernel halts. -/
def ElfMachine.physical (m : ElfMachine) (v : U32) : Option U32 :=
  let walk := effective m.kernel.currentPageDirectory v m.kernel.mem
  if walk.present then some (walk.frame <<< 12 + (v &&& 0xFFF#32)) else none

/-- Read the byte at `v`. -/
def ElfMachine.loadByte (m : ElfMachine) (v : U32) : Option (BitVec 8) := do
  let physical ← m.physical v
  some (if kernelVirt ≤ v then m.window v else m.ram physical)

/-- Write the byte at `v`. The kernel's half is not written by a program that can
be loaded: `none` there too, its pages have been mapped away under the kernel. -/
def ElfMachine.storeByte (m : ElfMachine) (v : U32) (b : BitVec 8) : Option ElfMachine :=
  if kernelVirt ≤ v then none
  else do
    let physical ← m.physical v
    some { m with ram := Function.update m.ram physical b }

/-- `memset(dest, c, left)`. -/
def ElfMachine.memset (c : BitVec 8) : Nat → U32 → ElfMachine → Option ElfMachine
  | 0, _, m => some m
  | left + 1, dest, m => do
      let m ← m.storeByte dest c
      m.memset c left (dest + 1#32)

/-- `memcpy(dest, src, left)`. -/
def ElfMachine.memcpy : Nat → U32 → U32 → ElfMachine → Option ElfMachine
  | 0, _, _, m => some m
  | left + 1, dest, src, m => do
      let b ← m.loadByte src
      let m ← m.storeByte dest b
      m.memcpy left (dest + 1#32) (src + 1#32)

/-! ### The segment loop -/

/-- The addresses `p_vaddr + i` that `for (int i = 0; i <= p_memsz; i += 0x1000)`
maps, from `i` on. The comparison is unsigned; `none` when the loop never ends. -/
def segmentPagesFrom (ph : Phdr) : Nat → U32 → Option (List U32)
  | 0, _ => none
  | rounds + 1, i =>
    if i ≤ ph.pMemsz then
      (segmentPagesFrom ph rounds (i + 0x1000#32)).map ((ph.pVaddr + i) :: ·)
    else some []

/-- The addresses a segment's page loop maps. After `2 ^ 20` steps `i` is back
at zero. -/
def segmentPages (ph : Phdr) : Option (List U32) :=
  segmentPagesFrom ph (2 ^ 20 + 1) 0#32

/-- `k_paging_map(k_page_alloc(), virt, 0x7)` for each address. -/
def mapEach : List U32 → Kernel → Option Kernel
  | [], k => some k
  | virt :: pages, k => do
      let (phys, k) ← k.pageAlloc
      let k ← kPagingMap phys virt 0x7#32 k
      mapEach pages k

/-- One round of the loop: map the segment's pages, clear the segment, and copy
`p_memsz` bytes of the file into it. -/
def loadSegment (data : U32) (ph : Phdr) (m : ElfMachine) : Option ElfMachine := do
  let pages ← segmentPages ph
  let kernel ← mapEach pages m.kernel
  let m ← { m with kernel }.memset 0#8 ph.pMemsz.toNat ph.pVaddr
  m.memcpy ph.pMemsz.toNat ph.pVaddr (data + ph.pOffset)

/-- The segment loop of `elf_load`. -/
def loadSegments (data : U32) : List Phdr → ElfMachine → Option ElfMachine
  | [], m => some m
  | ph :: phdrs, m => do
      let m ← loadSegment data ph m
      loadSegments data phdrs m

/-! ### The loader -/

/-- `struct _proc_mmap`. -/
structure ProcMmap where
  pd : U32
  base : U32
  brk : U32
deriving DecidableEq

/-- The directory `elf_load` makes and swaps to before the segment loop. -/
def elfPrepare (m : ElfMachine) : Option ElfMachine := do
  let (pd, k) ← kCreatePagedir 0#32 0#32 0x7#32 m.kernel
  let k ← kMapKernel pd k
  some { m with kernel := kSwapPd pd k }

/-- `base`, from the header below `last_phdr`. -/
def breakBase (last : Phdr) : U32 :=
  (last.pVaddr + last.pMemsz + 0x1000#32) &&& ~~~0xFFF#32

/-- Write a 32-bit word at `v`. -/
def ElfMachine.storeWord (m : ElfMachine) (v w : U32) : Option ElfMachine := do
  let m ← m.storeByte v (w.extractLsb' 0 8)
  let m ← m.storeByte (v + 1#32) (w.extractLsb' 8 8)
  let m ← m.storeByte (v + 2#32) (w.extractLsb' 16 8)
  m.storeByte (v + 3#32) (w.extractLsb' 24 8)

/-- `strcpy(dest, s)`. -/
def ElfMachine.strcpy : List (BitVec 8) → U32 → ElfMachine → Option ElfMachine
  | [], dest, m => m.storeByte dest 0#8
  | c :: s, dest, m => do
      let m ← m.storeByte dest c
      m.strcpy s (dest + 1#32)

/-- `"new.s"`. -/
def newS : List (BitVec 8) :=
  [0x6E#8, 0x65#8, 0x77#8, 0x2E#8, 0x73#8]

/-- The page of the stack at `0x4000`, with the one argument and the two words
under `0x4F00` that the program starts with; returns the stack pointer. -/
def elfStack (m : ElfMachine) : Option (U32 × ElfMachine) := do
  let (phys, k) ← m.kernel.pageAlloc
  let kernel ← kPagingMap phys 0x4000#32 0x7#32 k
  let m ← { m with kernel }.storeWord 0x4500#32 0x4000#32
  let m ← m.strcpy newS 0x4000#32
  let m ← m.storeWord 0x4EFC#32 0x4000#32
  let m ← m.storeWord 0x4EF8#32 0#32
  some (0x4EF8#32, m)

/-- What `elf_load` hands over to `enter_usermode`. -/
structure Loaded where
  machine : ElfMachine
  cpMmap : ProcMmap
  eip : U32
  esp : U32

/-- `elf_load` on a file that `ext2_open` has read to the address `data`. The check
of the magic number only prints. -/
def elfLoad (data : U32) (m : ElfMachine) : Option Loaded := do
  let phdrs ← elfPhdrs m.window data
  let m ← elfPrepare m
  let m ← loadSegments data phdrs m
  let base := breakBase (phdrAt m.window (lastPhdr m.window data - 32#32))
  let pd := m.kernel.currentPageDirectory
  let (phys, k) ← m.kernel.pageAlloc
  let kernel ← kPagingMap phys base 0x7#32 k
  let (esp, m) ← elfStack { m with kernel }
  some
    { machine := m
      cpMmap := { pd, base, brk := base }
      eip := eEntry m.window data
      esp }

end Crunchy
