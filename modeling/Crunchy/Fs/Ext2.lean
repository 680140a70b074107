/-
Module: Crunchy.Fs.Ext2
Purpose: The ext2 code of `kernel/fs/ext2.c` and `kernel/fs/ext2_debug.c`, as programs over the
  buffer cache: reading superblock, group descriptor and inodes, allocating blocks and inodes,
  creating a file, reading it back, looking up names.
Trusted boundary: human-reviewed spec
Main exports: Ext2Env, ext2AllocBlock, ext2AllocInode, ext2Touch, ext2Open, ext2FileSeek,
  findInodeInDir
-/
import Crunchy.Strings
import Crunchy.Types
import Crunchy.Lib.BitWords
import Crunchy.Lib.Buffered

namespace Crunchy

open Lib

/-- Code that works on blocks of 1024 bytes through the buffer cache. It is stuck
where the source leaves a buffer, follows `NULL`, divides by zero or goes on for
ever. -/
abbrev DiskProgram (Result : Type) := Access U32 Bytes Result

/-- `buffer_read(1, block)`, or a look at the data of a buffer it returned. -/
def bufferRead (block : U32) : DiskProgram Bytes := .read block .pure

/-- A store into the data of a buffer. -/
def bufferStore (block : U32) (data : Bytes) : DiskProgram Unit := .store block data (.pure ())

/-- `buffer_write(b)`. -/
def bufferWrite (block : U32) : DiskProgram Unit := .write block (.pure ())

/-! ### Layout -/

/-- `BLOCK_SIZE`. -/
@[simp] def ext2BlockSize : Nat := 1024

/-- `EXT2_SUPER`, the block of the superblock. -/
@[simp] def ext2Super : U32 := 1#32

/-- `EXT2_MAGIC`. -/
def ext2Magic : BitVec 16 := 0xEF53#16

/-- `INODE_SIZE`. -/
@[simp] def inodeSize : Nat := 128

/-- `sizeof(dirent)`, the room for the longest name included. -/
@[simp] def direntSize : Nat := 263

/-- `sizeof(superblock)`. -/
@[simp] def superblockSize : Nat := 84

/-- `sizeof(block_group_descriptor)`. -/
@[simp] def groupDescSize : Nat := 32

namespace Superblock

@[simp] def freeBlocksCount : Nat := 12
@[simp] def freeInodesCount : Nat := 16
@[simp] def inodesPerGroup : Nat := 40
@[simp] def wtime : Nat := 48
@[simp] def magic : Nat := 56

end Superblock

namespace GroupDesc

@[simp] def blockBitmap : Nat := 0
@[simp] def inodeBitmap : Nat := 4
@[simp] def inodeTable : Nat := 8
@[simp] def freeBlocksCount : Nat := 12
@[simp] def freeInodesCount : Nat := 14

end GroupDesc

namespace InodeField

@[simp] def mode : Nat := 0
@[simp] def size : Nat := 4
@[simp] def atime : Nat := 8
@[simp] def ctime : Nat := 12
@[simp] def mtime : Nat := 16
@[simp] def dtime : Nat := 20
@[simp] def linksCount : Nat := 26
@[simp] def blocks : Nat := 28
@[simp] def block (q : Nat) : Nat := 40 + 4 * q

end InodeField

namespace Dirent

@[simp] def inode : Nat := 0
@[simp] def recLen : Nat := 4
@[simp] def nameLen : Nat := 6
@[simp] def fileType : Nat := 7
@[simp] def name : Nat := 8

end Dirent

/-- What the code gets from outside the disk: the clock, and the contents of the
memory that `malloc` returns. -/
structure Ext2Env where
  /-- `time()` at the three places where an inode is stamped, and for `wtime`. -/
  atime : U32
  ctime : U32
  mtime : U32
  wtime : U32
  /-- The words behind the 1024 bytes that are allocated for a copy of a bitmap. -/
  bitmapTail : Nat → U32
  /-- The memory that is allocated for an inode. -/
  inodeMemory : Bytes
  /-- The memory that is allocated for a file's contents. -/
  fileMemory : Bytes

/-! ### Superblock, group descriptor, inodes -/

/-- `ext2_superblock(1)`: whether it returns a superblock, which is in block 1. -/
def ext2Superblock : DiskProgram Bool := do
  let b ← bufferRead ext2Super
  return get16 b Superblock.magic == ext2Magic

/-- `ext2_superblock_rw(1, s)`. -/
def ext2SuperblockRw (s : Bytes) : DiskProgram Unit := do
  let b ← bufferRead ext2Super
  if get16 s Superblock.magic = ext2Magic then
    bufferStore ext2Super (patch b 0 superblockSize s)
    bufferWrite ext2Super

/-- `ext2_blockdesc(1)`: the group descriptors. -/
def ext2Blockdesc : DiskProgram Bytes := bufferRead (ext2Super + 1#32)

/-- `ext2_blockdesc_rw(1, bg)`. -/
def ext2BlockdescRw (bg : Bytes) : DiskProgram Unit := do
  let b ← bufferRead (ext2Super + 1#32)
  bufferStore (ext2Super + 1#32) (patch b 0 groupDescSize bg)
  bufferWrite (ext2Super + 1#32)

/-- Where `ext2_inode` and `ext2_touch` look for an inode: its group, its block in
the group's inode table and its offset in that block. -/
def inodeSlot (inodesPerGroup i : U32) : U32 × U32 × Nat :=
  let blockGroup := (i - 1#32) / inodesPerGroup
  let index := (i - 1#32) % inodesPerGroup
  let block := index * BitVec.ofNat 32 inodeSize / BitVec.ofNat 32 ext2BlockSize
  (blockGroup, block, index.toNat % (ext2BlockSize / inodeSize) * inodeSize)

/-- The block and offset of inode `i`, from the superblock and the descriptors. -/
def findInode (i : U32) : DiskProgram (U32 × Nat) := do
  let s ← bufferRead ext2Super
  let inodesPerGroup := get32 s Superblock.inodesPerGroup
  if inodesPerGroup = 0#32 then .stuck
  else
    let (blockGroup, block, offset) := inodeSlot inodesPerGroup i
    let bgd ← ext2Blockdesc
    let entry := groupDescSize * blockGroup.toNat
    if entry + groupDescSize ≤ ext2BlockSize then
      return (get32 bgd (entry + GroupDesc.inodeTable) + block, offset)
    else .stuck

/-- `ext2_inode(1, i)`: the block and the offset that the returned pointer is for. -/
def ext2Inode (i : U32) : DiskProgram (U32 × Nat) := do
  if ← ext2Superblock then findInode i else .stuck

/-- Where an inode is: the values of `block_group` and `block`, the block that is
read and the offset in its data. -/
structure InodePlace where
  blockGroup : Int
  block : Int
  bufferBlock : U32
  offset : U32
deriving DecidableEq

/-- The lines of `ext2_inode(1, i)` that find the inode. `i` and the local variables
are signed, `inodes_per_group`, `INODE_SIZE` and so `BLOCK_SIZE/INODE_SIZE` are
unsigned; `inodeTable` gives the field of each entry of the descriptor array. -/
def ext2InodePlace (inodesPerGroup : U32) (inodeTable : Int → U32) (i : Int) : InodePlace :=
  let blockGroup := (BitVec.ofInt 32 (i - 1) / inodesPerGroup).toInt
  let index := (BitVec.ofInt 32 (i - 1) % inodesPerGroup).toInt
  let block :=
    (BitVec.ofInt 32 index * BitVec.ofNat 32 inodeSize / BitVec.ofNat 32 ext2BlockSize).toInt
  { blockGroup, block
    bufferBlock := inodeTable blockGroup + BitVec.ofInt 32 block
    offset := BitVec.ofInt 32 index % BitVec.ofNat 32 (ext2BlockSize / inodeSize) *
      BitVec.ofNat 32 inodeSize }

/-- The lines of `ext2_touch` that find the place of the new inode. Here the number
is unsigned, and `offset` is a signed variable of its own. -/
def ext2TouchPlace (inodesPerGroup : U32) (inodeTable : Int → U32) (inodeNum : U32) :
    InodePlace :=
  let blockGroup := ((inodeNum - 1#32) / inodesPerGroup).toInt
  let index := ((inodeNum - 1#32) % inodesPerGroup).toInt
  let block :=
    (BitVec.ofInt 32 index * BitVec.ofNat 32 inodeSize / BitVec.ofNat 32 ext2BlockSize).toInt
  let offset :=
    (BitVec.ofInt 32 index % BitVec.ofNat 32 (ext2BlockSize / inodeSize) *
      BitVec.ofNat 32 inodeSize).toInt
  { blockGroup, block
    bufferBlock := inodeTable blockGroup + BitVec.ofInt 32 block
    offset := BitVec.ofInt 32 offset }

/-! ### Allocation -/

/-- `ext_first_free(b, sz)`: the first zero bit in `sz` words; `none` where the
source runs off its end. -/
def extFirstFree (b : Words 32) (sz : Nat) : Option Nat := b.firstClear sz

/-- The words from the start of the copy of a bitmap on. -/
def bitmapWords (env : Ext2Env) (bitmap : Bytes) : Words 32 :=
  fun q => if q < ext2BlockSize / 4 then get32 bitmap (4 * q)
    else env.bitmapTail (q - ext2BlockSize / 4)

/-- What `ext2_alloc_block` and `ext2_alloc_inode` do with their bitmap. -/
def ext2AllocBit (env : Ext2Env) (block : U32) : DiskProgram U32 := do
  let bitmap ← bufferRead block
  match extFirstFree (bitmapWords env bitmap) ext2BlockSize with
  | none => .stuck
  | some num =>
    if num / 32 < ext2BlockSize / 4 then do
      let word := get32 bitmap (4 * (num / 32))
      bufferStore block (put32 bitmap (4 * (num / 32)) (word ||| 1#32 <<< (num % 32)))
      bufferWrite block
      return BitVec.ofNat 32 (num + 1)
    else .stuck

/-- `ext2_alloc_block()`. -/
def ext2AllocBlock (env : Ext2Env) : DiskProgram U32 := do
  let bg ← ext2Blockdesc
  ext2AllocBit env (get32 bg GroupDesc.blockBitmap)

/-- `ext2_alloc_inode()`. -/
def ext2AllocInode (env : Ext2Env) : DiskProgram U32 := do
  let bg ← ext2Blockdesc
  ext2AllocBit env (get32 bg GroupDesc.inodeBitmap)

/-- The inner loop of `ext_first_free`: the first zero bit of one word. -/
def firstFreeBit (word : U32) : Option Nat :=
  (List.range 32).find? fun i => (word ^^^ BitVec.allOnes 32) &&& 1#32 <<< i ≠ 0#32

/-- The outer loop of `ext_first_free`, with `count` rounds left from word `q` on:
the words it reads, and what it returns. -/
def extFirstFreeLoop (b : Words 32) : (count q : Nat) → List Nat × Option Nat
  | 0, _ => ([], none)
  | count + 1, q =>
    match firstFreeBit (b q) with
    | some i => ([q], some (i + q * 32))
    | none =>
      let rest := extFirstFreeLoop b count (q + 1)
      (q :: rest.1, rest.2)

/-- What an allocation does to the memory that its copy of the bitmap is in, by
words from the start of the copy on: the words it reads, the words it writes, and
unless the scan runs off its end the number it returns and the words then. -/
structure CopyUse where
  reads : List Nat
  writes : List Nat
  outcome : Option (U32 × Words 32)

/-- `ext2_alloc_block` and `ext2_alloc_inode` on `memory`, once the bitmap is copied
there: the scan, the update and the copy back. -/
def useCopy (memory : Words 32) : CopyUse :=
  let scan := extFirstFreeLoop memory ext2BlockSize 0
  match scan.2 with
  | none => { reads := scan.1, writes := List.range (ext2BlockSize / 4), outcome := none }
  | some num =>
    { reads := scan.1 ++ num / 32 :: List.range (ext2BlockSize / 4)
      writes := List.range (ext2BlockSize / 4) ++ [num / 32]
      outcome := some (BitVec.ofNat 32 (num + 1), memory.insert num) }

/-- `ext2_write_indirect(indirect, link, block_num)`. -/
def ext2WriteIndirect (indirect link : U32) (blockNum : Nat) : DiskProgram Unit := do
  let b ← bufferRead indirect
  if blockNum * 4 + 4 ≤ ext2BlockSize then do
    bufferStore indirect (put32 b (blockNum * 4) link)
    bufferWrite indirect
  else .stuck

/-- `ext2_read_indirect(indirect, block_num)`. -/
def ext2ReadIndirect (indirect : U32) (blockNum : Nat) : DiskProgram U32 := do
  let b ← bufferRead indirect
  if blockNum * 4 + 4 ≤ ext2BlockSize then return get32 b (blockNum * 4)
  else .stuck

/-! ### `ext2_touch` -/

/-- Subtract one from the counters of free blocks. -/
def countBlock : DiskProgram Unit := do
  let s ← bufferRead ext2Super
  bufferStore ext2Super
    (put32 s Superblock.freeBlocksCount (get32 s Superblock.freeBlocksCount - 1#32))
  let bg ← ext2Blockdesc
  bufferStore (ext2Super + 1#32)
    (put16 bg GroupDesc.freeBlocksCount (get16 bg GroupDesc.freeBlocksCount - 1#16))

/-- The pointers to block `q` of the file: the block for its data, the indirect
block and the inode after the body of the loop has linked it. -/
def linkBlock (env : Ext2Env) (q : Nat) (indirect : U32) (i : Bytes) :
    DiskProgram (U32 × U32 × Bytes) := do
  let blockNum ← ext2AllocBlock env
  if q < 12 then return (blockNum, indirect, put32 i (InodeField.block q) blockNum)
  else if q = 12 then do
    let dataBlock ← ext2AllocBlock env
    ext2WriteIndirect blockNum dataBlock 0
    return (dataBlock, blockNum, put32 i (InodeField.block q) blockNum)
  else if q < ext2BlockSize / 4 + 12 then do
    ext2WriteIndirect indirect blockNum (q - 12)
    return (blockNum, indirect, i)
  else return (blockNum, indirect, i)

/-- `memset(b->data, 0, BLOCK_SIZE)`, `memcpy` of `c` bytes and `buffer_write(b)`. -/
def writeData (blockNum : U32) (source : Bytes) (c : Nat) : DiskProgram Unit := do
  let b ← bufferRead blockNum
  bufferStore blockNum (patch b 0 ext2BlockSize fun _ => 0#8)
  let b ← bufferRead blockNum
  bufferStore blockNum (patch b 0 c source)
  bufferWrite blockNum

/-- The body of the loop: block `q` of the file, with `sz` bytes still to write. -/
def touchBlock (env : Ext2Env) (data : Bytes) (q sz : Nat) (indirect : U32) (i : Bytes) :
    DiskProgram (U32 × Bytes) := do
  let (blockNum, indirect, i) ← linkBlock env q indirect i
  let i := put32 i InodeField.blocks (get32 i InodeField.blocks + 2#32)
  let c := if sz ≥ ext2BlockSize then ext2BlockSize else sz
  writeData blockNum (fun j => data (q * ext2BlockSize + j)) c
  countBlock
  return (indirect, i)

/-- `while (sz)`; it runs at most once for each byte. -/
def touchLoop (env : Ext2Env) (data : Bytes) : (fuel q sz : Nat) → U32 → Bytes →
    DiskProgram (U32 × Bytes)
  | fuel, q, sz, indirect, i =>
    if sz = 0 then return (indirect, i)
    else
      match fuel with
      | 0 => .stuck
      | fuel + 1 => do
          let (indirect, i) ← touchBlock env data q sz indirect i
          let c := if sz ≥ ext2BlockSize then ext2BlockSize else sz
          touchLoop env data fuel (q + 1) (sz - c) indirect i

/-- The loop that prints the blocks of the file; it reads the indirect block. -/
def touchReport (indirect : U32) : (count q : Nat) → DiskProgram Unit
  | 0, _ => return ()
  | count + 1, q => do
      if 12 < q then
        let _ ← ext2ReadIndirect indirect (q - 13)
      touchReport indirect count (q + 1)

/-- The inode before the loop. -/
def touchInode (env : Ext2Env) (n : Nat) : Bytes :=
  let i := put16 env.inodeMemory InodeField.mode 0x81C0#16
  let i := put32 i InodeField.size (BitVec.ofNat 32 n)
  let i := put32 i InodeField.atime env.atime
  let i := put32 i InodeField.ctime env.ctime
  let i := put32 i InodeField.mtime env.mtime
  let i := put32 i InodeField.dtime 0#32
  put16 i InodeField.linksCount 1#16

/-- `(sizeof(dirent) + length + 4) & ~0x3`. -/
def direntLen (length : Nat) : Nat := (direntSize + length + 4) / 4 * 4

/-- The search for the last entry of the directory block, which is cut to its
computed size: the offset behind it, or `none` for want of room. -/
def dirScan (block : U32) (newEntryLen : Nat) : (fuel d sum : Nat) → DiskProgram (Option Nat)
  | 0, _, _ => .stuck
  | fuel + 1, d, sum => do
      let dir ← bufferRead block
      if d + Dirent.fileType ≤ ext2BlockSize then do
        let recLen := (get16 dir (d + Dirent.recLen)).toNat
        let calcLen := direntLen (dir (d + Dirent.nameLen)).toNat
        if recLen ≠ calcLen ∧ sum + recLen = ext2BlockSize then do
          if sum + newEntryLen > ext2BlockSize then return none
          else do
            bufferStore block (put16 dir (d + Dirent.recLen) (BitVec.ofNat 16 calcLen))
            return some (d + calcLen)
        else if sum + recLen < ext2BlockSize then
          dirScan block newEntryLen fuel (d + recLen) (sum + recLen)
        else return some (d + recLen)
      else .stuck

/-- The new entry at offset `d`. -/
def newDirent (dir : Bytes) (d : Nat) (inodeNum : U32) (name : List (BitVec 8)) : Bytes :=
  let dir := put16 dir (d + Dirent.recLen) (BitVec.ofNat 16 (ext2BlockSize - d))
  let dir := put32 dir (d + Dirent.inode) inodeNum
  let dir := put8 dir (d + Dirent.fileType) 1#8
  let dir := put8 dir (d + Dirent.nameLen) (BitVec.ofNat 8 name.length)
  patch dir (d + Dirent.name) name.length fun q => name.getD q 0#8

/-- The update of the directory block; whether there was room. -/
def touchDirectory (block : U32) (name : List (BitVec 8)) (inodeNum : U32) :
    DiskProgram Bool := do
  match ← dirScan block (direntLen name.length) (ext2BlockSize + 1) 0 0 with
  | none => return false
  | some d =>
    if d + Dirent.name + name.length ≤ ext2BlockSize then do
      let dir ← bufferRead block
      bufferStore block (newDirent dir d inodeNum name)
      bufferWrite block
      return true
    else .stuck

/-- The counters of free inodes and the time of the last write; `group` is the
group of the new inode. -/
def countInode (env : Ext2Env) (group : Nat) : DiskProgram Unit := do
  let s ← bufferRead ext2Super
  bufferStore ext2Super (put32
    (put32 s Superblock.freeInodesCount (get32 s Superblock.freeInodesCount - 1#32))
    Superblock.wtime env.wtime)
  let s ← bufferRead ext2Super
  ext2SuperblockRw s
  let bg ← ext2Blockdesc
  let entry := groupDescSize * group
  bufferStore (ext2Super + 1#32) (put16 bg (entry + GroupDesc.freeInodesCount)
    (get16 bg (entry + GroupDesc.freeInodesCount) - 1#16))
  let bg ← ext2Blockdesc
  ext2BlockdescRw fun j => bg (entry + j)

/-- What follows the loop: the terminator in the indirect block, two more sectors,
and the report. -/
def touchTerminate (indirect : U32) (i : Bytes) : DiskProgram Bytes := do
  ext2WriteIndirect indirect 0#32 ((get32 i InodeField.blocks).toNat / 2)
  let i := put32 i InodeField.blocks (get32 i InodeField.blocks + 2#32)
  touchReport indirect ((get32 i InodeField.blocks).toNat / 2 + 1) 0
  return i

/-- The inode goes to its place in the inode table. -/
def touchWriteInode (inodeNum : U32) (i : Bytes) : DiskProgram Unit := do
  let (table, offset) ← findInode inodeNum
  let ib ← bufferRead table
  bufferStore table (patch ib offset inodeSize i)
  bufferWrite table

/-- The entry in the root directory, and the counters; 0 for want of room. -/
def touchEnter (env : Ext2Env) (name : List (BitVec 8)) (inodeNum : U32) : DiskProgram U32 := do
  let (rootTable, rootOffset) ← ext2Inode 2#32
  let rootdir ← bufferRead rootTable
  let root := get32 rootdir (rootOffset + InodeField.block 0)
  if ← touchDirectory root name inodeNum then
    let s ← bufferRead ext2Super
    let (group, _, _) := inodeSlot (get32 s Superblock.inodesPerGroup) inodeNum
    countInode env group.toNat
    return inodeNum
  else return 0#32

/-- `ext2_touch(name, data, n)`; the name is given without its `NUL`. -/
def ext2Touch (env : Ext2Env) (name : List (BitVec 8)) (data : Bytes) (n : Nat) :
    DiskProgram U32 := do
  if ← ext2Superblock then
    let inodeNum ← ext2AllocInode env
    let (indirect, i) ← touchLoop env data n 0 n 0#32 (touchInode env n)
    let i ← touchTerminate indirect i
    touchWriteInode inodeNum i
    touchEnter env name inodeNum
  else .stuck

/-! ### `ext2_open` -/

/-- The indirect block and the block to copy, in round `i` of the loop. -/
def openBlock (node : Bytes) (offset i : Nat) (indirect blocknum : U32) :
    DiskProgram (U32 × U32) := do
  if i < 12 then return (indirect, get32 node (offset + InodeField.block i))
  -- `blocknum` keeps its value here
  else if i = 12 then return (get32 node (offset + InodeField.block i), blocknum)
  else do
    let next ← ext2ReadIndirect indirect (i - 12)
    return (indirect, next)

/-- The loop of `ext2_open` over the blocks of the inode at `offset` of block
`table`, from block `i` on. -/
def openLoop (table : U32) (offset : Nat) : (count i : Nat) → U32 → U32 → Bytes →
    DiskProgram Bytes
  | 0, _, _, _, buf => return buf
  | count + 1, i, indirect, blocknum, buf => do
      let node ← bufferRead table
      let (indirect, blocknum) ← openBlock node offset i indirect blocknum
      if blocknum = 0#32 then return buf
      else do
        let b ← bufferRead blocknum
        openLoop table offset count (i + 1) indirect blocknum
          (patch buf (i * ext2BlockSize) ext2BlockSize b)

/-- `ext2_open(in)` for the inode at `offset` of block `table`. -/
def ext2Open (env : Ext2Env) (table : U32) (offset : Nat) : DiskProgram (Option Bytes) := do
  let node ← bufferRead table
  let numBlocks := (get32 node (offset + InodeField.blocks)).toNat / 2
  if numBlocks = 0 then return none
  else do
    let buf ← openLoop table offset numBlocks 0 0#32 0#32 env.fileMemory
    return some buf

/-! ### `ext2_file_seek` -/

/-- What a `memcpy` reads of a buffer: `count` bytes from byte `start` of the data of a block
on. -/
structure DataRead where
  block : U32
  start : Nat
  count : Nat

/-- `nblocks`: `(n-1 + BLOCK_SIZE & ~(BLOCK_SIZE-1)) / BLOCK_SIZE`. -/
def seekBlocks (n : U32) : Nat :=
  (((n - 1#32 + BitVec.ofNat 32 ext2BlockSize) &&& ~~~(BitVec.ofNat 32 ext2BlockSize - 1#32)) /
    BitVec.ofNat 32 ext2BlockSize).toNat

/-- The loop of `ext2_file_seek` over the blocks of the inode at `inodeAt` of block `table`,
with what it has read so far. `behind` is the memory behind the data of each buffer. -/
def fileSeekLoop (behind : U32 → Bytes) (table : U32) (inodeAt offBlock : Nat) :
    (left i off : Nat) → Bytes → List DataRead → DiskProgram (Bytes × List DataRead)
  | 0, _, _, buf, reads => return (buf, reads)
  | left + 1, i, off, buf, reads => do
      let node ← bufferRead table
      let block := get32 node (inodeAt + InodeField.block (offBlock + i))
      let b ← bufferRead block
      let data := patch (behind block) 0 ext2BlockSize b
      fileSeekLoop behind table inodeAt offBlock left (i + 1) 0
        (patch buf (i * ext2BlockSize) ext2BlockSize fun j => data (off + j))
        (reads ++ [⟨block, off, ext2BlockSize⟩])

/-- `ext2_file_seek(in, n, offset)` for the inode at `inodeAt` of block `table`: the memory from
the returned pointer on, and what has been read. The two assertions only print. -/
def ext2FileSeek (env : Ext2Env) (behind : U32 → Bytes) (table : U32) (inodeAt : Nat)
    (n offset : U32) : DiskProgram (Bytes × List DataRead) :=
  fileSeekLoop behind table inodeAt (offset.toNat / ext2BlockSize) (seekBlocks n) 0
    (offset.toNat % ext2BlockSize) env.fileMemory []

/-! ### `find_inode_in_dir` -/

/-- The `int` `-1` that `find_inode_in_dir` returns for a name it does not find. -/
def noInode : U32 := 0xFFFFFFFF#32

/-- The loop that copies the blocks of the inode at `offset` of block `table` one
behind the other, from block `q` on. -/
def dirCopy (table : U32) (offset : Nat) : (count q : Nat) → Bytes → DiskProgram Bytes
  | 0, _, buf => return buf
  | count + 1, q, buf => do
      let node ← bufferRead table
      let b ← bufferRead (get32 node (offset + InodeField.block q))
      dirCopy table offset count (q + 1) (patch buf (q * ext2BlockSize) ext2BlockSize b)

/-- The loop over the entries, from the one at `d` on; `none` where it goes on for
ever. What it reads behind the end of the buffer is the memory there. -/
def dirFind (buf name : Bytes) (size : Nat) : (fuel d sum : Nat) → Option U32
  | 0, _, _ => none
  | fuel + 1, d, sum =>
    let recLen := (get16 buf (d + Dirent.recLen)).toNat
    let sum := sum + recLen
    let nameLen := (buf (d + Dirent.nameLen)).toNat
    if strncmp (fun j => buf (d + Dirent.name + j)) name nameLen = 0 then
      some (get32 buf (d + Dirent.inode))
    else
      let d := d + recLen
      if sum < size then dirFind buf name size fuel d sum else some noInode

/-- `find_inode_in_dir(name, dir_inode)`, where `name` is the memory from the pointer
on. -/
def findInodeInDir (env : Ext2Env) (name : Bytes) (dirInode : U32) : DiskProgram U32 := do
  if dirInode = 0#32 then return noInode
  else do
    let (table, offset) ← ext2Inode dirInode
    let node ← bufferRead table
    let blocks := get32 node (offset + InodeField.blocks)
    let size := (BitVec.ofNat 32 ext2BlockSize * blocks / 2#32).toNat
    let buf := patch env.fileMemory 0 size fun _ => 0#8
    let buf ← dirCopy table offset (blocks.toNat / 2) 0 buf
    match dirFind buf name size (size + 1) 0 0 with
    | some ino => return ino
    | none => .stuck

end Crunchy
