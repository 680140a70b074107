/-
Module: Crunchy.Proofs.Ext2Alloc
Purpose: What the small pieces of the ext2 code do to the volume: reads, stores and
  writes of one block, the allocation of one bit of a bitmap, the place of an inode.
Trusted boundary: none
Main exports: bitSet, freeBits, ext2AllocBit_run, ext2WriteIndirect_run, findInode_run
-/
import Crunchy.Fs.Ext2
import Mathlib.Data.Finset.Card

namespace Crunchy

open Lib BitVec Option Function Buffered Access

variable {v : Buffered U32 Bytes} {env : Ext2Env}

variable {v' : Buffered U32 Bytes} {blockNum index : Nat} {indirect table : U32}

/-! ### Single accesses -/

@[simp] theorem run_bufferRead (block : U32) :
    (bufferRead block).run v = some (v.view block, v) := rfl

@[simp] theorem run_bufferStore (block : U32) (data : Bytes) :
    (bufferStore block data).run v = some ((), v.store block data) := rfl

@[simp] theorem run_bufferWrite (block : U32) :
    (bufferWrite block).run v = some ((), v.write block (v.view block)) := rfl

@[simp] theorem run_ext2Blockdesc : ext2Blockdesc.run v = some (v.view 2#32, v) := rfl

@[simp] theorem run_ext2Superblock :
    ext2Superblock.run v = some (get16 (v.view 1#32) 56 == ext2Magic, v) := rfl

/-- A store and the write that follows it. -/
theorem store_write (block : U32) (data : Bytes) :
    (v.store block data).write block ((v.store block data).view block) = v.put block data := by
  rw [store_view_self, Buffered.put]

/-! ### Bitmaps -/

/-- The number of bits in a block. -/
def bitCount : Nat := 8192

/-- Bit `k` of a bitmap. -/
def bitSet (bitmap : Bytes) (k : Nat) : Bool := (get32 bitmap (4 * (k / 32))).getLsbD (k % 32)

/-- The bitmap with bit `k` set. -/
def setBit (bitmap : Bytes) (k : Nat) : Bytes :=
  put32 bitmap (4 * (k / 32)) (get32 bitmap (4 * (k / 32)) ||| 1#32 <<< (k % 32))

/-- The zero bits of a bitmap. -/
def freeBits (bitmap : Bytes) : Finset Nat :=
  (Finset.range bitCount).filter fun k => bitSet bitmap k = false

variable {bitmap : Bytes} {k num : Nat}

theorem mem_freeBits : k ∈ freeBits bitmap ↔ k < bitCount ∧ bitSet bitmap k = false := by
  simp [freeBits]

/-- The number of the block or inode that a bit is for. -/
theorem toNat_bitNumber (inside : k < bitCount) : (BitVec.ofNat 32 (k + 1)).toNat = k + 1 := by
  unfold bitCount at inside
  rw [toNat_ofNat]
  omega

theorem mem_bitmapWords (inside : k < bitCount) :
    (bitmapWords env bitmap).mem k = bitSet bitmap k := by
  have word : k / 32 < 256 := by
    unfold bitCount at inside
    omega
  simp [Words.mem, bitmapWords, bitSet, word]

theorem bitmapWords_setBit (inside : num < bitCount) :
    bitmapWords env (setBit bitmap num) = (bitmapWords env bitmap).insert num := by
  have word : num / 32 < 256 := by
    unfold bitCount at inside
    omega
  funext q
  by_cases same : q = num / 32
  · subst same
    simp [bitmapWords, Words.insert, setBit, word]
  · rw [Words.insert, update_of_ne same]
    simp only [bitmapWords, setBit]
    rw [get32_put32_apart (by omega)]

/-- Setting a bit sets that bit. -/
theorem bitSet_setBit (inside : num < bitCount) (below : k < bitCount) :
    bitSet (setBit bitmap num) k = (decide (k = num) || bitSet bitmap k) := by
  have env : Ext2Env := ⟨0, 0, 0, 0, fun _ => 0, fun _ => 0, fun _ => 0⟩
  have inserted := Words.mem_insert (bitmapWords env bitmap) num k (by decide)
  rwa [← bitmapWords_setBit inside, mem_bitmapWords below, mem_bitmapWords below] at inserted

/-- Setting a zero bit takes it from the zero bits. -/
theorem freeBits_setBit (inside : num < bitCount) :
    freeBits (setBit bitmap num) = (freeBits bitmap).erase num := by
  ext k
  rw [Finset.mem_erase, mem_freeBits, mem_freeBits]
  constructor
  · rintro ⟨below, clear⟩
    rw [bitSet_setBit inside below, Bool.or_eq_false_iff, decide_eq_false_iff_not] at clear
    exact ⟨clear.1, below, clear.2⟩
  · rintro ⟨other, below, clear⟩
    rw [bitSet_setBit inside below, Bool.or_eq_false_iff, decide_eq_false_iff_not]
    exact ⟨below, other, clear⟩

theorem card_freeBits_setBit (free : num ∈ freeBits bitmap) :
    (freeBits (setBit bitmap num)).card + 1 = (freeBits bitmap).card := by
  rw [freeBits_setBit (mem_freeBits.mp free).1]
  exact Finset.card_erase_add_one free

/-- The scan ends at the first zero bit of the bitmap, if there is one. -/
theorem extFirstFree_eq (env : Ext2Env) (someFree : (freeBits bitmap).Nonempty) :
    ∃ num ∈ freeBits bitmap, (∀ k ∈ freeBits bitmap, num ≤ k) ∧
      extFirstFree (bitmapWords env bitmap) ext2BlockSize = some num := by
  obtain ⟨least, free⟩ := someFree
  rw [mem_freeBits] at free
  cases scan : extFirstFree (bitmapWords env bitmap) ext2BlockSize with
  | none =>
    -- the scan covers the bitmap and more, so it would have met the free bit
    have full := Words.firstClear_eq_none_iff.mp scan least
    rw [mem_bitmapWords free.1, free.2] at full
    unfold bitCount at free
    simp only [ext2BlockSize] at full
    exact absurd (full (by omega)) (by decide)
  | some num =>
    obtain ⟨_, clear, before⟩ := Words.firstClear_eq_some_iff.mp scan
    have first : ∀ k ∈ freeBits bitmap, num ≤ k := by
      intro k member
      rw [mem_freeBits] at member
      by_contra later
      have set := before k (by omega)
      rw [mem_bitmapWords member.1, member.2] at set
      cases set
    have inside : num < bitCount :=
      Nat.lt_of_le_of_lt (first least (mem_freeBits.mpr free)) free.1
    rw [mem_bitmapWords inside] at clear
    exact ⟨num, mem_freeBits.mpr ⟨inside, clear⟩, first, rfl⟩

/-- Allocation takes the first zero bit, if there is one. -/
theorem ext2AllocBit_run (env : Ext2Env) {block : U32}
    (someFree : (freeBits (v.view block)).Nonempty) :
    ∃ num ∈ freeBits (v.view block), (∀ k ∈ freeBits (v.view block), num ≤ k) ∧
      (ext2AllocBit env block).run v =
        some (BitVec.ofNat 32 (num + 1), v.put block (setBit (v.view block) num)) := by
  obtain ⟨num, free, first, scan⟩ := extFirstFree_eq env someFree
  refine ⟨num, free, first, ?_⟩
  have word : num / 32 < ext2BlockSize / 4 := by
    have inside := (mem_freeBits.mp free).1
    unfold bitCount at inside
    simp only [ext2BlockSize]
    omega
  simp only [ext2AllocBit, run_bind, run_bufferRead, bind_some, scan, if_pos word,
    run_bufferStore, run_bufferWrite, run_pure, store_write, setBit]

/-- An allocation that returns has taken a zero bit. -/
theorem ext2AllocBit_eq_some {block x : U32} (ran : (ext2AllocBit env block).run v = some (x, v')) :
    ∃ num ∈ freeBits (v.view block), (∀ k ∈ freeBits (v.view block), num ≤ k) ∧
      x = BitVec.ofNat 32 (num + 1) ∧ v' = v.put block (setBit (v.view block) num) := by
  by_cases someFree : (freeBits (v.view block)).Nonempty
  · obtain ⟨num, free, first, allocated⟩ := ext2AllocBit_run env someFree
    rw [allocated] at ran
    cases ran
    exact ⟨num, free, first, rfl, rfl⟩
  · -- a bit behind the block is found, and writing it leaves the buffer
    simp only [ext2AllocBit, run_bind, run_bufferRead, bind_some] at ran
    split at ran
    · cases ran
    · rename_i num scan
      split at ran
      · rename_i word
        have inside : num < bitCount := by
          simp only [ext2BlockSize] at word
          unfold bitCount
          omega
        obtain ⟨_, clear, _⟩ := Words.firstClear_eq_some_iff.mp scan
        rw [mem_bitmapWords inside] at clear
        exact absurd ⟨num, mem_freeBits.mpr ⟨inside, clear⟩⟩ someFree
      · cases ran

/-! ### Indirect blocks -/

theorem ext2WriteIndirect_run {link : U32} (inside : blockNum < 256) :
    (ext2WriteIndirect indirect link blockNum).run v =
      some ((), v.put indirect (put32 (v.view indirect) (blockNum * 4) link)) := by
  have fits : blockNum * 4 + 4 ≤ ext2BlockSize := by
    simp only [ext2BlockSize]
    omega
  simp only [ext2WriteIndirect, run_bind, run_bufferRead, bind_some, if_pos fits,
    run_bufferStore, run_bufferWrite, store_write]

/-- A store behind the end of the buffer has no meaning. -/
theorem ext2WriteIndirect_outside {link : U32} (outside : 256 ≤ blockNum) :
    (ext2WriteIndirect indirect link blockNum).run v = none := by
  have tooFar : ¬blockNum * 4 + 4 ≤ ext2BlockSize := by
    simp only [ext2BlockSize]
    omega
  simp only [ext2WriteIndirect, run_bind, run_bufferRead, bind_some, if_neg tooFar, run_stuck]

theorem ext2WriteIndirect_eq_some {link : U32}
    (ran : (ext2WriteIndirect indirect link blockNum).run v = some ((), v')) :
    v' = v.put indirect (put32 (v.view indirect) (blockNum * 4) link) := by
  by_cases inside : blockNum < 256
  · rw [ext2WriteIndirect_run inside] at ran
    cases ran
    rfl
  · rw [ext2WriteIndirect_outside (Nat.not_lt.mp inside)] at ran
    cases ran

theorem ext2ReadIndirect_run (inside : blockNum < 256) :
    (ext2ReadIndirect indirect blockNum).run v =
      some (get32 (v.view indirect) (blockNum * 4), v) := by
  have fits : blockNum * 4 + 4 ≤ ext2BlockSize := by
    simp only [ext2BlockSize]
    omega
  simp only [ext2ReadIndirect, run_bind, run_bufferRead, bind_some, if_pos fits, run_pure]

/-! ### The place of an inode -/

/-- The block of the inode table, and the offset in it, of inode `index + 1`. -/
def slotBlock (table : U32) (index : Nat) : U32 := table + BitVec.ofNat 32 (index / 8)

def slotOffset (index : Nat) : Nat := index % 8 * 128

/-- Where an inode of the first group is. -/
theorem inodeSlot_eq {inodesPerGroup : U32} (inGroup : index < inodesPerGroup.toNat)
    (few : inodesPerGroup.toNat ≤ bitCount) :
    inodeSlot inodesPerGroup (BitVec.ofNat 32 (index + 1)) =
      (0#32, BitVec.ofNat 32 (index / 8), slotOffset index) := by
  unfold bitCount at few
  have number : BitVec.ofNat 32 (index + 1) - 1#32 = BitVec.ofNat 32 index := by
    apply eq_of_toNat_eq
    rw [toNat_sub, toNat_ofNat, toNat_ofNat, toNat_ofNat]
    omega
  have isIndex : (BitVec.ofNat 32 index).toNat = index := by
    rw [toNat_ofNat]
    omega
  have group : BitVec.ofNat 32 index / inodesPerGroup = 0#32 := by
    apply eq_of_toNat_eq
    rw [toNat_udiv, isIndex, Nat.div_eq_of_lt inGroup]
    rfl
  have rest : BitVec.ofNat 32 index % inodesPerGroup = BitVec.ofNat 32 index := by
    apply eq_of_toNat_eq
    rw [toNat_umod, isIndex, Nat.mod_eq_of_lt inGroup]
  have block : BitVec.ofNat 32 index * 128#32 / 1024#32 = BitVec.ofNat 32 (index / 8) := by
    apply eq_of_toNat_eq
    rw [toNat_udiv, toNat_mul, isIndex, toNat_ofNat, toNat_ofNat, toNat_ofNat]
    simp only [Nat.reducePow, Nat.reduceMod]
    omega
  simp only [inodeSlot, number, group, rest, isIndex, inodeSize, ext2BlockSize, block, slotOffset]

theorem findInode_run (inGroup : index < (get32 (v.view 1#32) 40).toNat)
    (few : (get32 (v.view 1#32) 40).toNat ≤ bitCount) (isTable : get32 (v.view 2#32) 8 = table) :
    (findInode (BitVec.ofNat 32 (index + 1))).run v =
      some ((slotBlock table index, slotOffset index), v) := by
  have notZero : get32 (v.view 1#32) 40 ≠ 0#32 := by
    intro zero
    rw [zero] at inGroup
    exact absurd inGroup (Nat.not_lt_zero index)
  simp only [findInode, ext2Super, Superblock.inodesPerGroup, run_bind, run_bufferRead,
    bind_some, if_neg notZero, inodeSlot_eq inGroup few, run_ext2Blockdesc]
  simp [isTable, slotBlock]

/-- The slots of different inodes do not overlap. -/
theorem slot_apart {i j : Nat} (few : i < bitCount) (few' : j < bitCount)
    (sameBlock : slotBlock table i = slotBlock table j) (other : i ≠ j) :
    slotOffset i + 128 ≤ slotOffset j ∨ slotOffset j + 128 ≤ slotOffset i := by
  have same : i / 8 = j / 8 := by
    have numbers := congrArg BitVec.toNat (add_right_inj _ |>.mp sameBlock)
    unfold bitCount at few few'
    rw [toNat_ofNat, toNat_ofNat] at numbers
    omega
  unfold slotOffset
  omega

end Crunchy
