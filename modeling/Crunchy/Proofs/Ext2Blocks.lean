/-
Module: Crunchy.Proofs.Ext2Blocks
Purpose: The blocks that a run of `ext2_touch` allocates: they were free, they are
  distinct, and nothing but them, the bitmap and two counters changes on the way.
Trusted boundary: none
Main exports: blockBitmapOf, IsFree, Ground, Taken, Taken.alloc, Taken.put, Taken.count
-/
import Crunchy.Proofs.Ext2Alloc

namespace Crunchy

open Lib Option List Buffered Access

/-- The block of the block bitmap. -/
def blockBitmapOf (v : Buffered U32 Bytes) : U32 := get32 (v.view 2#32) 0

/-- The bitmap says that the block is free; its first bit is for block 1. -/
def IsFree (v : Buffered U32 Bytes) (x : U32) : Prop :=
  ∃ k ∈ freeBits (v.view (blockBitmapOf v)), x = BitVec.ofNat 32 (k + 1)

/-- The bitmap is apart from superblock and group descriptors, and none of these
blocks is free. -/
structure Ground (w : Buffered U32 Bytes) : Prop where
  notBoot : blockBitmapOf w ≠ 0#32
  notSuper : blockBitmapOf w ≠ 1#32
  notGroup : blockBitmapOf w ≠ 2#32
  free : ∀ x, IsFree w x → x ≠ 0#32 ∧ x ≠ 1#32 ∧ x ≠ 2#32 ∧ x ≠ blockBitmapOf w

/-- From `w` to `v` the blocks `used` have been taken: they were free before and
are not now, and besides them only the bitmap and the counters of free blocks
have changed, on disk only the bitmap. -/
structure Taken (w v : Buffered U32 Bytes) (used : List U32) : Prop where
  nodup : used.Nodup
  free : ∀ x ∈ used, IsFree w x
  bitmap : ∀ k < bitCount, bitSet (v.view (blockBitmapOf w)) k = true ↔
    bitSet (w.view (blockBitmapOf w)) k = true ∨ BitVec.ofNat 32 (k + 1) ∈ used
  super : ∀ i, i < 12 ∨ 16 ≤ i → v.view 1#32 i = w.view 1#32 i
  group : ∀ i, i < 12 ∨ 14 ≤ i → v.view 2#32 i = w.view 2#32 i
  view : ∀ x, x ∉ used → x ≠ blockBitmapOf w → x ≠ 1#32 → x ≠ 2#32 → v.view x = w.view x
  disk : ∀ x, x ∉ used → x ≠ blockBitmapOf w → v.disk x = w.disk x

theorem Taken.refl (w : Buffered U32 Bytes) : Taken w w [] where
  nodup := nodup_nil
  free := by simp
  bitmap := by simp
  super _ _ := rfl
  group _ _ := rfl
  view _ _ _ _ _ := rfl
  disk _ _ _ := rfl

/-- Different bits are for different blocks. -/
theorem blockOfBit_inj {k j : Nat} (few : k < bitCount) (few' : j < bitCount) :
    BitVec.ofNat 32 (k + 1) = BitVec.ofNat 32 (j + 1) ↔ k = j := by
  constructor
  · intro same
    have numbers := congrArg BitVec.toNat same
    rw [toNat_bitNumber few, toNat_bitNumber few'] at numbers
    omega
  · rintro rfl
    rfl

namespace Taken

variable {w v : Buffered U32 Bytes} {used : List U32} {x : U32}

theorem bitmapBlock (taken : Taken w v used) : get32 (v.view 2#32) 0 = blockBitmapOf w :=
  get32_congr fun i _ stop => taken.group i (by omega)

/-- Blocks that have not been taken yet are still free. -/
theorem some_free (taken : Taken w v used)
    (enough : used.length < (freeBits (w.view (blockBitmapOf w))).card) :
    (freeBits (v.view (blockBitmapOf w))).Nonempty := by
  -- otherwise the free bits of `w` inject into `used`, which is too short
  by_contra empty
  rw [Finset.not_nonempty_iff_eq_empty] at empty
  have allUsed : ∀ k ∈ freeBits (w.view (blockBitmapOf w)),
      BitVec.ofNat 32 (k + 1) ∈ used.toFinset := by
    intro k free
    rw [mem_freeBits] at free
    have isSet : bitSet (v.view (blockBitmapOf w)) k = true := by
      by_contra clear
      have member : k ∈ freeBits (v.view (blockBitmapOf w)) :=
        mem_freeBits.mpr ⟨free.1, by simpa using clear⟩
      rw [empty] at member
      cases member
    rcases (taken.bitmap k free.1).mp isSet with before | isUsed
    · rw [free.2] at before
      cases before
    · exact mem_toFinset.mpr isUsed
  have few := Finset.card_le_card_of_injOn _ allUsed fun k member j member' same =>
    (blockOfBit_inj (mem_freeBits.mp member).1 (mem_freeBits.mp member').1).mp same
  have shorter := used.toFinset_card_le
  omega

/-- A zero bit is for a block that has not been taken, and setting it takes it. -/
theorem setBit (taken : Taken w v used) (ground : Ground w) {num : Nat}
    (free : num ∈ freeBits (v.view (blockBitmapOf w))) :
    BitVec.ofNat 32 (num + 1) ∉ used ∧
      Taken w (v.put (blockBitmapOf w) (Crunchy.setBit (v.view (blockBitmapOf w)) num))
        (BitVec.ofNat 32 (num + 1) :: used) := by
  obtain ⟨few, clear⟩ := mem_freeBits.mp free
  have notSet : ¬(bitSet (w.view (blockBitmapOf w)) num = true ∨
      BitVec.ofNat 32 (num + 1) ∈ used) := by
    rw [← taken.bitmap num few, clear]
    decide
  rw [not_or] at notSet
  have isFree : IsFree w (BitVec.ofNat 32 (num + 1)) :=
    ⟨num, mem_freeBits.mpr ⟨few, by simpa using notSet.1⟩, rfl⟩
  refine ⟨notSet.2, ?_⟩
  constructor
  case nodup => exact nodup_cons.mpr ⟨notSet.2, taken.nodup⟩
  case free =>
    intro y member
    rcases mem_cons.mp member with rfl | isUsed
    · exact isFree
    · exact taken.free y isUsed
  case bitmap =>
    intro k below
    rw [put_view_self, bitSet_setBit few below, mem_cons, blockOfBit_inj below few, Bool.or_eq_true,
      decide_eq_true_eq, taken.bitmap k below, or_left_comm]
  case super =>
    intro i apart
    rw [put_view_other ground.notSuper.symm]
    exact taken.super i apart
  case group =>
    intro i apart
    rw [put_view_other ground.notGroup.symm]
    exact taken.group i apart
  case view =>
    intro y notUsed notBitmap notSuper notGroup
    rw [put_view_other notBitmap]
    exact taken.view y (fun isUsed => notUsed (mem_cons_of_mem _ isUsed)) notBitmap
      notSuper notGroup
  case disk =>
    intro y notUsed notBitmap
    rw [put_disk_other notBitmap]
    exact taken.disk y (fun isUsed => notUsed (mem_cons_of_mem _ isUsed)) notBitmap

theorem allocBlock_eq (env : Ext2Env) (taken : Taken w v used) :
    (ext2AllocBlock env).run v = (ext2AllocBit env (blockBitmapOf w)).run v := by
  simp only [ext2AllocBlock, run_bind, run_ext2Blockdesc, bind_some,
    GroupDesc.blockBitmap, taken.bitmapBlock]

/-- `ext2_alloc_block` takes one more block. -/
theorem alloc (env : Ext2Env) (taken : Taken w v used) (ground : Ground w)
    (enough : used.length < (freeBits (w.view (blockBitmapOf w))).card) :
    ∃ x v', (ext2AllocBlock env).run v = some (x, v') ∧ x ∉ used ∧ Taken w v' (x :: used) ∧
      ∀ y, y ≠ blockBitmapOf w → v'.view y = v.view y := by
  obtain ⟨num, free, _, allocated⟩ := ext2AllocBit_run env (taken.some_free enough)
  obtain ⟨fresh, after⟩ := taken.setBit ground free
  exact ⟨_, _, (taken.allocBlock_eq env).trans allocated, fresh, after,
    fun y other => put_view_other other⟩

/-- A taken block can be written. -/
theorem put (taken : Taken w v used) (ground : Ground w) (isUsed : x ∈ used) (data : Bytes) :
    Taken w (v.put x data) used := by
  obtain ⟨_, notSuper, notGroup, notBitmap⟩ := ground.free x (taken.free x isUsed)
  constructor
  case nodup => exact taken.nodup
  case free => exact taken.free
  case bitmap =>
    intro k below
    rw [put_view_other notBitmap.symm]
    exact taken.bitmap k below
  case super =>
    intro i apart
    rw [put_view_other notSuper.symm]
    exact taken.super i apart
  case group =>
    intro i apart
    rw [put_view_other notGroup.symm]
    exact taken.group i apart
  case view =>
    intro y notUsed notBitmap notSuper notGroup
    have other : y ≠ x := by
      rintro rfl
      exact notUsed isUsed
    rw [put_view_other other]
    exact taken.view y notUsed notBitmap notSuper notGroup
  case disk =>
    intro y notUsed notBitmap
    have other : y ≠ x := by
      rintro rfl
      exact notUsed isUsed
    rw [put_disk_other other]
    exact taken.disk y notUsed notBitmap

/-- A write to the boot block, before or after. -/
theorem boot (taken : Taken w v used) (ground : Ground w) (data : Bytes) :
    Taken (w.put 0#32 data) (v.put 0#32 data) used := by
  have bitmapOf : blockBitmapOf (w.put 0#32 data) = blockBitmapOf w := by
    rw [blockBitmapOf, put_view_other (by decide), blockBitmapOf]
  have bitmap : (w.put 0#32 data).view (blockBitmapOf w) = w.view (blockBitmapOf w) :=
    put_view_other ground.notBoot
  constructor
  case nodup => exact taken.nodup
  case free =>
    intro x isUsed
    rw [IsFree, bitmapOf, bitmap]
    exact taken.free x isUsed
  case bitmap =>
    intro k below
    rw [bitmapOf, bitmap, put_view_other ground.notBoot]
    exact taken.bitmap k below
  case super =>
    intro i apart
    exact taken.super i apart
  case group =>
    intro i apart
    exact taken.group i apart
  case view =>
    intro y notUsed notBitmap notSuper notGroup
    by_cases isBoot : y = 0#32
    · rw [isBoot, put_view_self, put_view_self]
    · rw [put_view_other isBoot, put_view_other isBoot]
      exact taken.view y notUsed notBitmap notSuper notGroup
  case disk =>
    intro y notUsed notBitmap
    by_cases isBoot : y = 0#32
    · rw [isBoot, put_disk_self, put_disk_self]
    · rw [put_disk_other isBoot, put_disk_other isBoot]
      exact taken.disk y notUsed notBitmap

/-- The counters of free blocks are in superblock and group descriptor. -/
theorem count (taken : Taken w v used) (ground : Ground w) :
    ∃ v', countBlock.run v = some ((), v') ∧ Taken w v' used ∧
      ∀ y, y ≠ 1#32 → y ≠ 2#32 → v'.view y = v.view y := by
  have ran : ∃ super group, countBlock.run v =
      some ((), (v.store 1#32 (put32 (v.view 1#32) 12 super)).store 2#32
        (put16 (v.view 2#32) 12 group)) := by
    have other : (2#32 : U32) ≠ 1#32 := by decide
    refine ⟨get32 (v.view 1#32) 12 - 1#32, get16 (v.view 2#32) 12 - 1#16, ?_⟩
    rfl
  obtain ⟨super, group, ran⟩ := ran
  have views : ∀ y, y ≠ 1#32 → y ≠ 2#32 → ((v.store 1#32 (put32 (v.view 1#32) 12 super)).store
      2#32 (put16 (v.view 2#32) 12 group)).view y = v.view y := fun y notSuper notGroup =>
    (store_view_other notGroup).trans (store_view_other notSuper)
  refine ⟨_, ran, ?_, views⟩
  constructor
  case nodup => exact taken.nodup
  case free => exact taken.free
  case bitmap =>
    intro k below
    rw [views _ ground.notSuper ground.notGroup]
    exact taken.bitmap k below
  case super =>
    intro i apart
    rw [store_view_other (by decide), store_view_self, put32, patch_outside (by omega)]
    exact taken.super i apart
  case group =>
    intro i apart
    rw [store_view_self, put16, patch_outside (by omega)]
    exact taken.group i apart
  case view =>
    intro y notUsed notBitmap notSuper notGroup
    rw [views y notSuper notGroup]
    exact taken.view y notUsed notBitmap notSuper notGroup
  case disk => exact taken.disk

end Taken

end Crunchy
