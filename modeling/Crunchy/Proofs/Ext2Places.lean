/-
Module: Crunchy.Proofs.Ext2Places
Purpose: `ext2_inode` and `ext2_touch` compute the place of an inode each in its own
  way, with signed and unsigned variables. The places are the same, slots do not
  cross a block end, and slots of one group do not overlap.
Trusted boundary: none
Main exports: ext2TouchPlace_eq, ext2InodePlace_eq, inode_places_agree
-/
import Crunchy.Proofs.Ext2Alloc

namespace Crunchy

open Lib BitVec Option Access

variable {inodesPerGroup i j : U32}

/-- The number of an inode in its group. -/
def indexInGroup (inodesPerGroup i : U32) : Nat := (i.toNat - 1) % inodesPerGroup.toNat

/-- The place of an inode, from its number in its group. -/
def placeOf (inodesPerGroup : U32) (inodeTable : Int → U32) (i : U32) : InodePlace where
  blockGroup := ((i - 1#32) / inodesPerGroup).toInt
  block := (indexInGroup inodesPerGroup i / 8 : Nat)
  bufferBlock := slotBlock (inodeTable ((i - 1#32) / inodesPerGroup).toInt)
    (indexInGroup inodesPerGroup i)
  offset := BitVec.ofNat 32 (slotOffset (indexInGroup inodesPerGroup i))

theorem toNat_inode_sub_one (isInode : i ≠ 0#32) : (i - 1#32).toNat = i.toNat - 1 := by
  have positive : i.toNat ≠ 0 := fun zero => isInode (eq_of_toNat_eq zero)
  rw [toNat_sub, toNat_ofNat]
  omega

theorem indexInGroup_lt (some : 0 < inodesPerGroup.toNat) :
    indexInGroup inodesPerGroup i < inodesPerGroup.toNat := Nat.mod_lt _ some

/-- The remainder both functions take. -/
theorem index_eq (isInode : i ≠ 0#32) :
    (i - 1#32) % inodesPerGroup = BitVec.ofNat 32 (indexInGroup inodesPerGroup i) := by
  rw [indexInGroup, ← toNat_inode_sub_one isInode, ← toNat_umod, ofNat_toNat, setWidth_eq]

theorem block_eq {index : Nat} (few : index < bitCount) :
    (BitVec.ofNat 32 index * BitVec.ofNat 32 inodeSize / BitVec.ofNat 32 ext2BlockSize) =
      BitVec.ofNat 32 (index / 8) := by
  unfold bitCount at few
  apply eq_of_toNat_eq
  simp only [inodeSize, ext2BlockSize, toNat_udiv, toNat_mul, toNat_ofNat,
    Nat.reducePow, Nat.reduceMod]
  omega

theorem offset_eq {index : Nat} (few : index < bitCount) :
    (BitVec.ofNat 32 index % BitVec.ofNat 32 (ext2BlockSize / inodeSize) *
      BitVec.ofNat 32 inodeSize) = BitVec.ofNat 32 (slotOffset index) := by
  apply eq_of_toNat_eq
  simp only [inodeSize, ext2BlockSize, slotOffset, toNat_umod, toNat_mul,
    toNat_ofNat, Nat.reducePow, Nat.reduceMod, Nat.reduceDiv]
  omega

/-- `block` is no negative number. -/
theorem toInt_block {index : Nat} (few : index < bitCount) :
    (BitVec.ofNat 32 (index / 8)).toInt = (index / 8 : Nat) := by
  unfold bitCount at few
  have value : (BitVec.ofNat 32 (index / 8)).toNat = index / 8 := by
    rw [toNat_ofNat]
    omega
  rw [toInt_eq_toNat_of_lt, value]
  omega

theorem toNat_slotOffset (index : Nat) :
    (BitVec.ofNat 32 (slotOffset index)).toNat = slotOffset index := by
  rw [toNat_ofNat, slotOffset]
  omega

theorem ext2TouchPlace_eq (some : 0 < inodesPerGroup.toNat)
    (few : inodesPerGroup.toNat ≤ bitCount) (inodeTable : Int → U32) (isInode : i ≠ 0#32) :
    ext2TouchPlace inodesPerGroup inodeTable i = placeOf inodesPerGroup inodeTable i := by
  have inside := Nat.lt_of_lt_of_le (indexInGroup_lt (i := i) some) few
  simp only [ext2TouchPlace, placeOf, ofInt_toInt, index_eq isInode, block_eq inside,
    offset_eq inside, toInt_block inside, slotBlock, ofInt_natCast]

/-- The signed number of `ext2_inode` has the bits of the unsigned one. -/
theorem ofInt_pred (i : U32) : BitVec.ofInt 32 (i.toInt - 1) = i - 1#32 := by
  rw [Int.sub_eq_add_neg, ofInt_add, ofInt_toInt, sub_eq_add_neg]
  rfl

theorem ext2InodePlace_eq (some : 0 < inodesPerGroup.toNat)
    (few : inodesPerGroup.toNat ≤ bitCount) (inodeTable : Int → U32) (isInode : i ≠ 0#32) :
    ext2InodePlace inodesPerGroup inodeTable i.toInt = placeOf inodesPerGroup inodeTable i := by
  have inside := Nat.lt_of_lt_of_le (indexInGroup_lt (i := i) some) few
  simp only [ext2InodePlace, placeOf, ofInt_pred, ofInt_toInt, index_eq isInode,
    block_eq inside, offset_eq inside, toInt_block inside, slotBlock, ofInt_natCast]

theorem placeOf_offset (inodesPerGroup : U32) (inodeTable : Int → U32) (i : U32) :
    (placeOf inodesPerGroup inodeTable i).offset.toNat =
      slotOffset (indexInGroup inodesPerGroup i) := toNat_slotOffset _

/-- Inodes of one group use one table. -/
theorem group_eq (isInode : i ≠ 0#32) (isOther : j ≠ 0#32)
    (sameGroup : (j.toNat - 1) / inodesPerGroup.toNat = (i.toNat - 1) / inodesPerGroup.toNat) :
    (j - 1#32) / inodesPerGroup = (i - 1#32) / inodesPerGroup := by
  apply eq_of_toNat_eq
  rw [toNat_udiv, toNat_udiv, toNat_inode_sub_one isInode, toNat_inode_sub_one isOther, sameGroup]

/-- Inodes of one group have different numbers in it. -/
theorem indexInGroup_ne (isInode : i ≠ 0#32) (isOther : j ≠ 0#32) (differs : j ≠ i)
    (sameGroup : (j.toNat - 1) / inodesPerGroup.toNat = (i.toNat - 1) / inodesPerGroup.toNat) :
    indexInGroup inodesPerGroup j ≠ indexInGroup inodesPerGroup i := by
  intro sameIndex
  apply differs
  have split := Nat.div_add_mod (i.toNat - 1) inodesPerGroup.toNat
  have splitOther := Nat.div_add_mod (j.toNat - 1) inodesPerGroup.toNat
  rw [indexInGroup, indexInGroup] at sameIndex
  rw [sameGroup, sameIndex, split] at splitOther
  have positive : i.toNat ≠ 0 := fun zero => isInode (eq_of_toNat_eq zero)
  have positiveOther : j.toNat ≠ 0 := fun zero => isOther (eq_of_toNat_eq zero)
  apply eq_of_toNat_eq
  omega

/-! ### The programs use these places -/

/-- The field `inode_table` of each entry of the descriptor block. -/
def descriptorTables (bgd : Bytes) (group : Int) : U32 :=
  get32 bgd (groupDescSize * (BitVec.ofInt 32 group).toNat + GroupDesc.inodeTable)

/-- The superblock of the volume has this many inodes per group, and the descriptor
of the inode's group is in the descriptor block. -/
structure Describes (v : Buffered U32 Bytes) (inodesPerGroup i : U32) : Prop where
  magic : get16 (v.view 1#32) 56 = ext2Magic
  count : get32 (v.view 1#32) 40 = inodesPerGroup
  inside : groupDescSize * ((i - 1#32) / inodesPerGroup).toNat + groupDescSize ≤ ext2BlockSize

theorem Describes.findInode_run {v : Buffered U32 Bytes} (describes : Describes v inodesPerGroup i)
    (some : 0 < inodesPerGroup.toNat) (few : inodesPerGroup.toNat ≤ bitCount)
    (isInode : i ≠ 0#32) :
    (findInode i).run v =
      .some (((placeOf inodesPerGroup (descriptorTables (v.view 2#32)) i).bufferBlock,
        (placeOf inodesPerGroup (descriptorTables (v.view 2#32)) i).offset.toNat), v) := by
  have inside := Nat.lt_of_lt_of_le (indexInGroup_lt (i := i) some) few
  have notZero : inodesPerGroup ≠ 0#32 := by
    rintro rfl
    exact absurd some (Nat.lt_irrefl 0)
  have isIndex : (BitVec.ofNat 32 (indexInGroup inodesPerGroup i)).toNat =
      indexInGroup inodesPerGroup i := by
    unfold bitCount at inside
    rw [toNat_ofNat]
    omega
  simp only [findInode, run_bind, run_bufferRead, bind_some, ext2Super,
    Superblock.inodesPerGroup, describes.count, if_neg notZero, inodeSlot, run_ext2Blockdesc,
    if_pos describes.inside, index_eq isInode, block_eq inside, isIndex, placeOf, slotBlock,
    descriptorTables, ofInt_toInt, toNat_slotOffset]
  rfl

/-- `ext2_touch` stores an inode where `ext2_inode` looks for it. Relative to its
table an inode stands at 128 times its number in its group, in one block, and the
inodes of a group do not overlap. -/
theorem inode_places_agree (some : 0 < inodesPerGroup.toNat)
    (few : inodesPerGroup.toNat ≤ bitCount) (inodeTable : Int → U32) (isInode : i ≠ 0#32)
    {place : InodePlace} (isPlace : place = ext2InodePlace inodesPerGroup inodeTable i.toInt) :
    ext2TouchPlace inodesPerGroup inodeTable i = place ∧
    place.bufferBlock = inodeTable place.blockGroup + BitVec.ofInt 32 place.block ∧
    place.block * 1024 + place.offset.toNat =
      128 * ((i.toNat - 1) % inodesPerGroup.toNat : Nat) ∧
    place.offset.toNat + 128 ≤ 1024 ∧
    (∀ j : U32, j ≠ 0#32 → j ≠ i →
      (j.toNat - 1) / inodesPerGroup.toNat = (i.toNat - 1) / inodesPerGroup.toNat →
      ∀ other, other = ext2InodePlace inodesPerGroup inodeTable j.toInt →
        other.bufferBlock ≠ place.bufferBlock ∨
        place.offset.toNat + 128 ≤ other.offset.toNat ∨
        other.offset.toNat + 128 ≤ place.offset.toNat) ∧
    ∀ v, Describes v inodesPerGroup i → inodeTable = descriptorTables (v.view 2#32) →
      (ext2Inode i).run v = .some ((place.bufferBlock, place.offset.toNat), v) ∧
      ∀ inode, (touchWriteInode i inode).run v = .some ((),
        v.put place.bufferBlock
          (patch (v.view place.bufferBlock) place.offset.toNat inodeSize inode)) := by
  rw [ext2InodePlace_eq some few inodeTable isInode] at isPlace
  subst isPlace
  have inside := Nat.lt_of_lt_of_le (indexInGroup_lt (i := i) some) few
  refine ⟨ext2TouchPlace_eq some few inodeTable isInode, ?_, ?_, ?_, ?_, ?_⟩
  · simp only [placeOf, slotBlock, ofInt_natCast]
  · rw [placeOf_offset, slotOffset]
    change (indexInGroup inodesPerGroup i / 8 : Nat) * (1024 : Int) + _ =
      128 * (indexInGroup inodesPerGroup i : Nat)
    omega
  · rw [placeOf_offset, slotOffset]
    omega
  · rintro j isOther differs sameGroup _ rfl
    rw [ext2InodePlace_eq some few inodeTable isOther, placeOf_offset, placeOf_offset]
    have insideOther := Nat.lt_of_lt_of_le (indexInGroup_lt (i := j) some) few
    by_cases sameBlock : (placeOf inodesPerGroup inodeTable j).bufferBlock =
        (placeOf inodesPerGroup inodeTable i).bufferBlock
    · simp only [placeOf, group_eq isInode isOther sameGroup] at sameBlock
      exact Or.inr (slot_apart inside insideOther sameBlock.symm
        (indexInGroup_ne isInode isOther differs sameGroup).symm)
    · exact Or.inl sameBlock
  · rintro v describes rfl
    have found := describes.findInode_run some few isInode
    constructor
    · simp only [ext2Inode, run_bind, run_ext2Superblock, describes.magic, beq_self_eq_true,
        bind_some, if_true, found]
    · intro inode
      simp only [touchWriteInode, run_bind, found, bind_some, run_bufferRead,
        run_bufferStore, run_bufferWrite, store_write]

/-- Inode 17 of a volume with ten inodes per group: the seventh of the second group,
and so the seventh slot of the first block of that group's table. -/
theorem seventeenth_inode_place :
    ext2InodePlace 10#32 (fun group => BitVec.ofInt 32 (100 + group)) 17 =
      { blockGroup := 1, block := 0, bufferBlock := 101#32, offset := 768#32 } ∧
    ext2TouchPlace 10#32 (fun group => BitVec.ofInt 32 (100 + group)) 17#32 =
      { blockGroup := 1, block := 0, bufferBlock := 101#32, offset := 768#32 } ∧
    (0 : Int) * 1024 + 768 = 128 * ((17 - 1) % 10 : Nat) := by
  have isPlace : { blockGroup := 1, block := 0, bufferBlock := 101#32, offset := 768#32 } =
      ext2InodePlace 10#32 (fun group => BitVec.ofInt 32 (100 + group)) (17#32 : U32).toInt := by
    decide
  obtain ⟨same, _, position, _⟩ := inode_places_agree (by decide) (by decide) _ (by decide) isPlace
  exact ⟨isPlace.symm, same, position⟩

end Crunchy
