/-
Module: Crunchy.Mem.Malloc
Purpose: The heap of `kernel/mem/malloc.c`. A block is one word of the chain, its
  used bit and its size; addresses are stored nowhere and are recovered as sums
  of the sizes before a block.
Trusted boundary: human-reviewed spec
Main exports: Heap, HeapEnv, sbrk, findBestFree, free, malloc, mallocA, realloc, kHeapInit
-/
import Crunchy.Types
import Mathlib.Tactic.NormNum

namespace Crunchy

/-- `K_HEAP_BOTTOM`. -/
def kHeapBottom : U32 := 0xC0300000#32

/-- `K_HEAP_MAX`. -/
def kHeapMax : U32 := 0xFFFFF000#32

/-- `MAX_BLOCKS`. -/
def maxBlocks : Nat := 1024

/-! ### Chain words -/

/-- `block_value >> 31`: 1 for a block in use, 0 for a free one. -/
def blockUsed (w : U32) : U32 := w >>> 31

/-- `block_value & ~(1 << 31)`: the size of the block. -/
def blockSize (w : U32) : U32 := w &&& 0x7FFFFFFF#32

/-- `w | (1 << 31)`. -/
def markUsed (w : U32) : U32 := 0x80000000#32 ||| w

/-- `w & ~(1 << 31)`. -/
def markFree (w : U32) : U32 := w &&& 0x7FFFFFFF#32

theorem toNat_blockSize (w : U32) : (blockSize w).toNat = w.toNat % 2147483648 :=
  Lib.toNat_and_lowMask (k := 31) w (by decide)

@[simp] theorem blockSize_markUsed (w : U32) : blockSize (markUsed w) = blockSize w := by
  rw [blockSize, markUsed, BitVec.and_or_distrib_right, blockSize]
  simp

@[simp] theorem blockSize_markFree (w : U32) : blockSize (markFree w) = blockSize w := by
  rw [blockSize, markFree, BitVec.and_assoc, BitVec.and_self, blockSize]

@[simp] theorem blockSize_blockSize (w : U32) : blockSize (blockSize w) = blockSize w :=
  blockSize_markFree w

theorem blockUsed_markUsed (w : U32) : blockUsed (markUsed w) ≠ 0#32 := by
  intro unused
  have bit := congrArg (fun x => x.getLsbD 0) unused
  simp [blockUsed, markUsed] at bit

theorem blockUsed_markFree (w : U32) : blockUsed (markFree w) = 0#32 := by
  apply BitVec.eq_of_toNat_eq
  have small := toNat_blockSize w
  rw [blockUsed, Lib.toNat_ushiftRight_div, markFree, ← blockSize, small, BitVec.toNat_ofNat]
  omega

/-! ### State -/

/-- What a run can meet that no result tells: a 32-bit address sum that wraps, the
report `HEAP FULL`, and an append the chain refuses. -/
inductive HeapNote where
  | wrapped
  | heapFull
  | refused
deriving DecidableEq

/-- The globals of `malloc.c`. `chain` holds the words `blockchain_add` has
written, so `BLOCKS_ALLOCATED` is its length and a block is named by its index;
`notes` is a record for the proofs which no function reads. `world` is the rest of
the machine, which the heap writes to and never reads. -/
structure Heap (W : Type) where
  chain : List U32
  kHeapTop : U32
  kLastAlloc : U32
  memlock : Bool
  notes : List HeapNote
  world : W
deriving DecidableEq

/-- The effects of the heap on the rest of the machine: backing the page at an
address when `sbrk` walks over it (`k_virt_to_phys`, `k_page_alloc`,
`k_paging_map`), `memcpy`, and what `vsnprintf` writes into its buffer. -/
structure HeapEnv (W : Type) where
  mapHeapPage : U32 → W → W
  memcpy : U32 → U32 → U32 → W → W
  formatInto : U32 → W → W

section Heap

variable {W : Type} (env : HeapEnv W)

/-- The notes after a sum `a + b`: one more when it does not fit in 32 bits. -/
@[irreducible]
def sumNotes (a b : U32) (notes : List HeapNote) : List HeapNote :=
  if 2 ^ 32 ≤ a.toNat + b.toNat then .wrapped :: notes else notes

/-- Record a sum `a + b`. -/
@[simps]
def Heap.noteSum (a b : U32) (h : Heap W) : Heap W :=
  { h with notes := sumNotes a b h.notes }

/-- `acquire(&memlock)`; `none` when it spins for ever, the lock being held by the
same flow of control. -/
def acquire (h : Heap W) : Option (Heap W) :=
  if h.memlock then none else some { h with memlock := true }

/-- `release(&memlock)`. -/
def release (h : Heap W) : Heap W := { h with memlock := false }

/-! ### Growing -/

/-- `blockchain_add(size)`. -/
def blockchainAdd (size : U32) (h : Heap W) : Bool × Heap W :=
  if maxBlocks < h.chain.length then (false, { h with notes := .refused :: h.notes })
  else (true, { h with chain := h.chain ++ [markUsed (blockSize size)] })

/-- The loop of `sbrk`: back the page at the top and move the top over it. -/
def sbrkLoop : Nat → Heap W → Heap W
  | 0, h => h
  | i + 1, h =>
    sbrkLoop i
      { h with
        world := env.mapHeapPage h.kHeapTop h.world
        kHeapTop := h.kHeapTop + 0x1000#32 }

/-- `num_of_blocks` in `sbrk(n)`. -/
def numOfBlocks (n : U32) : U32 :=
  if 0x1000#32 < n then n / 0x1000#32 else 1#32

/-- `sbrk(n)`, with the `printf` it reports `HEAP FULL` through. -/
def sbrk (printf : Heap W → Option (Heap W)) (n : U32) (h : Heap W) :
    Option (U32 × Heap W) :=
  if n = 0#32 then some (null, h)
  else
    let h := h.noteSum n h.kHeapTop
    if kHeapMax ≤ n + h.kHeapTop then do
      let h ← printf { h with notes := .heapFull :: h.notes }
      some (null, h)
    else
      let h := sbrkLoop env (numOfBlocks n).toNat h
      some (h.kHeapTop, h)

/-! ### Searching -/

/-- The chain word at index `i`; words past the last entry read as zero. -/
def chainWord (chain : List U32) (i : Nat) : U32 := chain.getD i 0#32

/-- The loop of `find_best_free`. A hit restarts the counter `i` but not `block`,
so the loop reads on past the end of the chain. `none` when `fuel` runs out. -/
def findBestFreeLoop (n : U32) (chain : List U32) :
    Nat → Nat → Nat → Option Nat → U32 → Option (Option Nat)
  | 0, _, _, _, _ => none
  | fuel + 1, i, block, smallest, smallestSz =>
    if i < chain.length then
      let w := chainWord chain block
      if n ≤ blockSize w ∧ blockSize w ≤ smallestSz ∧ blockUsed w = 0#32 then
        findBestFreeLoop n chain fuel 0 (block + 1) (some block) (blockSize w)
      else findBestFreeLoop n chain fuel (i + 1) (block + 1) smallest smallestSz
    else some smallest

/-- `find_best_free(n)`: the index of the block, or `none` for `NULL`. The outer
`none` is a search that does not end, which happens for `n = 0` alone
(`findBestFree_spec`). -/
def findBestFree (n : U32) (chain : List U32) : Option (Option Nat) :=
  findBestFreeLoop n chain (2 * chain.length + 1) 0 0 none (n * 3#32)

/-- What `find_block` points at. On an empty chain it steps back to the word
before it. -/
inductive BlockPtr where
  | null
  | beforeChain
  | entry (i : Nat)

/-- The loop of `find_block`, over the words it has not read: the index `block`
has when the loop ends. -/
def findBlockLoop (toTraverse : U32) : List U32 → U32 → Nat → Nat
  | [], _, block => block
  | w :: rest, totalSize, block =>
    let totalSize := totalSize + blockSize w
    if toTraverse < totalSize then block + 1
    else findBlockLoop toTraverse rest totalSize (block + 1)

/-- `find_block(ptr)`. -/
def findBlock (ptr : U32) (h : Heap W) : BlockPtr :=
  if h.kLastAlloc < ptr then .null
  else
    match findBlockLoop (ptr - kHeapBottom) h.chain 0#32 0 with
    | 0 => .beforeChain
    | block + 1 => .entry block

/-- `*block`; words outside the chain read as zero. -/
def Heap.word (h : Heap W) : BlockPtr → U32
  | .entry i => chainWord h.chain i
  | _ => 0#32

/-- `*block = w`; a write outside the chain changes no block. -/
def Heap.setWord (h : Heap W) (w : U32) : BlockPtr → Heap W
  | .entry i => { h with chain := h.chain.set i w }
  | _ => h

/-- The sum of the sizes before block `b`, as `translate` adds it up. -/
def sizeBefore (chain : List U32) (b : Nat) : U32 :=
  (chain.take b).foldl (fun totalSize w => totalSize + blockSize w) 0#32

/-- `translate(b)`, with the `printf` it reports an error through. -/
def translate (printf : Heap W → Option (Heap W)) (b : Nat) (h : Heap W) :
    Option (U32 × Heap W) :=
  if h.chain.length < b then some (null, h)
  else
    let address := kHeapBottom + sizeBefore h.chain b
    if h.kLastAlloc < address then do
      let h ← printf h
      some (null, h)
    else some (address, h)

/-! ### Allocation -/

/-- `free(ptr)`. -/
def free (ptr : U32) (h : Heap W) : Option (U32 × Heap W) := do
  let h ← acquire h
  let block := findBlock ptr h
  let h := h.setWord (markFree (h.word block)) block
  some (ptr, release h)

/-- The branch of `malloc` that found no free block and makes a new one. -/
def mallocNew (printf : Heap W → Option (Heap W)) (n : U32) (h : Heap W) :
    Option (U32 × Heap W) :=
  let (r, h) := blockchainAdd n h
  if !r then some (null, release h)
  else do
    let h := h.noteSum h.kLastAlloc n
    let (_, h) ←
      if h.kHeapTop ≤ h.kLastAlloc + n then
        sbrk env printf (2#32 * ((n + h.kLastAlloc) - h.kHeapTop)) h
      else some (null, h)
    let ptr := h.kLastAlloc
    some (ptr, release { h with kLastAlloc := h.kLastAlloc + n })

/-- The branch of `malloc` that takes a free block. -/
def mallocReuse (printf : Heap W → Option (Heap W)) (block : Nat) (h : Heap W) :
    Option (U32 × Heap W) := do
  let h := { h with chain := h.chain.set block (markUsed (chainWord h.chain block)) }
  let (ptr, h) ← translate printf block h
  some (ptr, release h)

/-- `malloc(n)`, with the `printf` its callees use. -/
def mallocWith (printf : Heap W → Option (Heap W)) (n : U32) (h : Heap W) :
    Option (U32 × Heap W) :=
  if n = 0#32 then some (null, h)
  else do
    let h ← acquire h
    match ← findBestFree n h.chain with
    | some block => mallocReuse printf block h
    | none => mallocNew env printf n h

/-- What `printf` does to the heap: `vsnprintf` takes a buffer of 256 bytes, writes
to it and frees it. -/
def printfWith (malloc : U32 → Heap W → Option (U32 × Heap W)) (h : Heap W) :
    Option (Heap W) := do
  let (buf, h) ← malloc 256#32 h
  let h := { h with world := env.formatInto buf h.world }
  let (_, h) ← free buf h
  some h

/-- `malloc` as it calls itself through `printf`, to a depth of `depth`. -/
def mallocDepth : Nat → U32 → Heap W → Option (U32 × Heap W)
  | 0 => fun _ _ => none
  | depth + 1 => mallocWith env (printfWith env (mallocDepth depth))

/-- `malloc(n)`. A `printf` inside it finds `memlock` held and never returns, so
no call goes deeper (`malloc_eq`). -/
def malloc (n : U32) (h : Heap W) : Option (U32 × Heap W) :=
  mallocDepth env 1 n h

/-- `printf`. -/
def printf (h : Heap W) : Option (Heap W) :=
  printfWith env (malloc env) h

/-- `base` in `malloc_a`: the page boundary after `K_LAST_ALLOC`. -/
def pageBase (last : U32) : U32 := (last &&& ~~~0xFFF#32) + 0x1000#32

/-- `diff` in `malloc_a`: the bytes up to that boundary. -/
def pageDiff (last : U32) : U32 := pageBase last - last

/-- The first half of `malloc_a`: a free block up to the next page boundary, where
the next address is not on one. The result is false when the append is refused. -/
def padToPage (h : Heap W) : Option (Bool × Heap W) :=
  let h := h.noteSum (h.kLastAlloc &&& ~~~0xFFF#32) 0x1000#32
  let diff := pageDiff h.kLastAlloc
  if diff ≠ 0x1000#32 then
    let (r, h) := blockchainAdd diff h
    if !r then some (false, h)
    else do
      let h := { h with kLastAlloc := h.kLastAlloc + diff }
      let (ptr, h) ← translate (printf env) (h.chain.length - 1) h
      let (_, h) ← free ptr h
      some (true, h)
  else some (true, h)

/-- `malloc_a(n)`. -/
def mallocA (n : U32) (h : Heap W) : Option (U32 × Heap W) := do
  let (r, h) ← padToPage env h
  if !r then some (null, h)
  else
    let (r, h) := blockchainAdd n h
    if !r then some (null, h)
    else
      let ptr := h.kLastAlloc
      let h := h.noteSum h.kLastAlloc n
      let h := { h with kLastAlloc := h.kLastAlloc + n }
      if h.kHeapTop ≤ h.kLastAlloc then do
        let (_, h) ← sbrk env (printf env) ((h.kLastAlloc - h.kHeapTop) + 0x1000#32) h
        some (ptr, h)
      else some (ptr, h)

/-- `realloc(ptr, n)`. -/
def realloc (ptr n : U32) (h : Heap W) : Option (U32 × Heap W) := do
  let (new, h) ← malloc env n h
  match findBlock ptr h with
  | .null =>
    let h ← printf env h
    some (null, h)
  | block =>
    let bv := h.word block
    let h := h.setWord (markFree bv) block
    let sz := markFree bv
    let h :=
      { h with world := env.memcpy new ptr (if n ≤ sz then n else sz) h.world }
    let h ← printf env h
    some (new, h)

/-- `k_heap_init()`. -/
def kHeapInit (world : W) : Option (Heap W) := do
  let (_, h) ← sbrk env (printf env) 0x10000#32
    { chain := []
      kHeapTop := kHeapBottom
      kLastAlloc := kHeapBottom
      memlock := false
      notes := []
      world }
  some h

end Heap

end Crunchy
