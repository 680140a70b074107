/-
Module: Crunchy.Proofs.Ext2Frame
Purpose: Which blocks of the disk a whole `ext2_touch` changes, and for which files
  they are only those that belong to the new file.
Trusted boundary: none
Main exports: TouchesOwnBlocks, touch_changes_own_blocks
-/
import Crunchy.Proofs.Ext2Touch
import Mathlib.Order.Interval.Finset.Nat

namespace Crunchy

open Lib

/-- The blocks that the creation of inode `ino` may change besides free ones. -/
def ownBlocks (v : Buffered U32 Bytes) (ino : U32) : List U32 :=
  [1#32, 2#32, blockBitmapOf v, inodeBitmapOf v, slotBlock (inodeTableOf v) (ino.toNat - 1),
    rootBlockOf v]

/-- The call returns, so that it stays inside its buffers, and on the disk only the
new file's blocks and the volume's own ones for it have changed. -/
def TouchesOwnBlocks (env : Ext2Env) (v : Buffered U32 Bytes) (name : List (BitVec 8))
    (data : Bytes) (n : Nat) : Prop :=
  ∃ ino v', (ext2Touch env name data n).run v = some (ino, v') ∧
    ∀ x, v'.disk x ≠ v.disk x → x ∈ ownBlocks v ino ∨ IsFree v x

variable {v v' : Buffered U32 Bytes} {used : List U32} {env : Ext2Env} {data : Bytes}
  {n index : Nat} {name : List (BitVec 8)}

namespace Created

theorem inode_index (created : Created v v' data n index used) (image : Ext2Image v) :
    (BitVec.ofNat 32 (index + 1)).toNat - 1 = index := by
  rw [toNat_bitNumber (Nat.lt_of_lt_of_le created.inGroup image.inodes), Nat.add_sub_cancel]

/-- Only block 0 can be changed without need. -/
theorem changed (created : Created v v' data n index used) (image : Ext2Image v) {x : U32}
    (differs : v'.disk x ≠ v.disk x) :
    x = 0#32 ∨ x ∈ ownBlocks v (BitVec.ofNat 32 (index + 1)) ∨ IsFree v x := by
  by_cases isUsed : x ∈ used
  · exact Or.inr (Or.inr (created.free x isUsed))
  · by_contra other
    apply differs
    apply created.disk x isUsed
    simp only [ownBlocks, created.inode_index image, List.mem_cons, List.not_mem_nil, or_false,
      not_or] at other ⊢
    exact ⟨other.1, other.2.1⟩

/-- Block 0 is none of the blocks that the call may change. -/
theorem boot_foreign (created : Created v v' data n index used) (image : Ext2Image v) :
    ¬((0#32 : U32) ∈ ownBlocks v (BitVec.ofNat 32 (index + 1)) ∨ IsFree v 0#32) := by
  rintro (own | free)
  · have slot := image.slot_apart created.inGroup
    simp only [ownBlocks, created.inode_index image, List.mem_cons, List.not_mem_nil,
      or_false] at own
    rcases own with super | group | bitmap | inodes | table | root
    · exact absurd super (by decide)
    · exact absurd group (by decide)
    · exact image.blockBitmap_apart.1 bitmap.symm
    · exact image.inodeBitmap_apart.1 inodes.symm
    · exact slot.1 table.symm
    · exact image.root_apart.1 root.symm
  · exact image.inUse _ (by simp [reservedBlocks]) free

/-- What the creation of a file changes is its own, unless it changes block 0. -/
theorem own_iff (created : Created v v' data n index used) (image : Ext2Image v) :
    (∀ x, v'.disk x ≠ v.disk x → x ∈ ownBlocks v (BitVec.ofNat 32 (index + 1)) ∨ IsFree v x) ↔
      v'.disk 0#32 = v.disk 0#32 := by
  constructor
  · intro own
    by_contra differs
    exact created.boot_foreign image (own _ differs)
  · intro same x differs
    rcases created.changed image differs with rfl | own
    · exact absurd same differs
    · exact own

end Created

/-- The terminator leaves block 0 as it was if it goes to an indirect block, or if
there is a zero already. -/
theorem bootAfter_eq_iff (boot : Bytes) (q : Nat) :
    bootAfter boot q = boot ↔ q ≤ 12 → get32 boot (q * 4) = 0#32 := by
  unfold bootAfter
  by_cases few : q ≤ 12
  · rw [if_pos few]
    constructor
    · intro same _
      rw [← same, get32_put32]
    · intro zero
      rw [← zero few, put32_get32]
  · rw [if_neg few]
    exact ⟨fun _ small => absurd small few, fun _ => rfl⟩

/-- A file that needs its indirect block, and whose terminator is inside of it, is
the one whose creation always keeps to its own blocks; a shorter one does if there
is a zero word in block 0 where its terminator goes. -/
theorem touch_changes_own_blocks (env : Ext2Env) (v : Buffered U32 Bytes)
    (name : List (BitVec 8)) (data : Bytes) (n : Nat) (image : Ext2Image v)
    (room : HasRoom v name n) (zero : env.ZeroInode) (small : n ≤ (12 + 256) * 1024) :
    TouchesOwnBlocks env v name data n ↔
      (n ≤ 12 * 1024 ∧ get32 (v.view 0#32) (blockCount n * 4) = 0#32) ∨
        (12 * 1024 < n ∧ n ≤ 255 * 1024) := by
  by_cases few : blockCount n ≤ 255
  · obtain ⟨index, v', used, ran, created⟩ := ext2Touch_run data image room zero few
    have returns : TouchesOwnBlocks env v name data n ↔ v'.disk 0#32 = v.disk 0#32 := by
      rw [← created.own_iff image]
      constructor
      · rintro ⟨ino, v'', ran', own⟩
        rw [ran] at ran'
        cases ran'
        exact own
      · intro own
        exact ⟨_, v', ran, own⟩
    have inTable : n ≤ 255 * 1024 := blockCount_le_iff.mp few
    rw [returns, created.boot, bootAfter_eq_iff, blockCount_le_iff, ← image.coherent]
    constructor
    · intro zeroWord
      by_cases short : n ≤ 12 * 1024
      · exact Or.inl ⟨short, zeroWord short⟩
      · exact Or.inr ⟨Nat.not_le.mp short, inTable⟩
    · rintro (⟨_, zeroWord⟩ | ⟨long, _⟩) short
      · exact zeroWord
      · exact absurd short (Nat.not_le.mpr long)
  · have many : 255 * 1024 < n := Nat.not_le.mp fun inTable => few (blockCount_le_iff.mpr inTable)
    have stuck := ext2Touch_overrun name data v zero (Nat.not_le.mp few) (by omega)
    constructor
    · rintro ⟨ino, v', ran, _⟩
      rw [stuck] at ran
      cases ran
    · rintro (⟨short, _⟩ | ⟨_, inTable⟩)
      · omega
      · omega

/-! ### A small volume -/

/-- The blocks of a volume with 16 inodes and one entry in its root directory. Its
first block is not empty. -/
def smallBlock : Nat → Bytes
  | 0 => fun _ => 0x90#8
  | 1 => fun j => if j = 40 then 16#8 else if j = 56 then 0x53#8 else if j = 57 then 0xEF#8 else 0#8
  | 2 => fun j => if j = 0 then 3#8 else if j = 4 then 4#8 else if j = 8 then 5#8 else 0#8
  | 3 => fun j => if j < 4 then 0xFF#8 else 0#8
  | 4 => fun j => if j = 0 then 3#8 else 0#8
  | 5 => fun j => if j = 168 then 7#8 else 0#8
  | 7 => fun j => if j = 5 then 4#8 else if j = 6 then 1#8 else 0#8
  | _ => fun _ => 0#8

def smallVolume : Buffered U32 Bytes where
  view x := smallBlock x.toNat
  disk x := smallBlock x.toNat

/-- The bits behind the first word of its block bitmap are zero, those before are not. -/
private theorem smallVolume_free {k : Nat} :
    k ∈ freeBits (smallVolume.view (blockBitmapOf smallVolume)) ↔ 32 ≤ k ∧ k < bitCount := by
  have isThree : blockBitmapOf smallVolume = 3#32 := by decide +kernel
  have bitmap : smallVolume.view (blockBitmapOf smallVolume) = smallBlock 3 := by
    rfl
  have first : ∀ k < 32, bitSet (smallBlock 3) k = true := by decide +kernel
  have later : ∀ k, 32 ≤ k → bitSet (smallBlock 3) k = false := by
    intro k behind
    have same : get32 (smallBlock 3) (4 * (k / 32)) = get32 (fun _ => 0#8) (4 * (k / 32)) := by
      apply get32_congr
      intro j start _
      exact if_neg (by omega)
    have zero : get32 (fun _ => 0#8) (4 * (k / 32)) = 0#32 := by simp [get32, number]
    rw [bitSet, same, zero, BitVec.getLsbD_zero]
  rw [mem_freeBits, bitmap]
  constructor
  · rintro ⟨below, clear⟩
    refine ⟨?_, below⟩
    by_contra before
    rw [first k (Nat.not_le.mp before)] at clear
    cases clear
  · rintro ⟨behind, below⟩
    exact ⟨below, later k behind⟩

theorem smallVolume_image : Ext2Image smallVolume where
  magic := by decide +kernel
  rootInode := by decide +kernel
  inodes := by decide +kernel
  distinct := by decide +kernel
  inUse := by
    rintro x reserved ⟨k, free, rfl⟩
    have low : (reservedBlocks smallVolume).all (fun x => x.toNat < 32) = true := by
      decide +kernel
    have bound := of_decide_eq_true (List.all_eq_true.mp low _ reserved)
    obtain ⟨behind, below⟩ := smallVolume_free.mp free
    unfold bitCount at below
    rw [BitVec.toNat_ofNat] at bound
    omega
  rootInUse := by decide +kernel
  coherent := rfl

theorem smallVolume_room (short : name.length ≤ 255) (small : n ≤ (12 + 256) * 1024) :
    HasRoom smallVolume name n where
  blocks := by
    have free : freeBits (smallVolume.view (blockBitmapOf smallVolume)) =
        Finset.Ico 32 bitCount := by
      ext k
      rw [smallVolume_free, Finset.mem_Ico]
    rw [free, Nat.card_Ico]
    unfold neededBlocks blockCount bitCount
    split <;> omega
  inode := ⟨2, mem_freeBits.mpr (by decide +kernel), by decide +kernel⟩
  entry := by
    refine ⟨0, ?_⟩
    have size : calcLenAt (smallVolume.view (rootBlockOf smallVolume)) 0 = 268 := by
      decide +kernel
    constructor
    · exact LastEntry.here (by decide +kernel)
    · rw [size]
      omega
    · unfold direntLen direntSize
      omega

/-- Memory that `malloc` returns, cleared. -/
def clearEnv : Ext2Env := ⟨0, 0, 0, 0, fun _ => 0, fun _ => 0#8, fun _ => 0#8⟩

theorem clearEnv_zero : clearEnv.ZeroInode := fun _ => rfl

/-- A file of thirteen blocks on the small volume. -/
theorem thirteen_blocks_apart :
    TouchesOwnBlocks clearEnv smallVolume [0x61#8] (fun _ => 7#8) (13 * 1024) :=
  (touch_changes_own_blocks clearEnv smallVolume [0x61#8] (fun _ => 7#8) (13 * 1024)
    smallVolume_image (smallVolume_room (by decide) (by decide)) clearEnv_zero (by decide)).mpr
      (Or.inr ⟨by decide, by decide⟩)

/-- A file of one byte writes its terminator into the boot block, and one of 256
blocks behind the end of its indirect block's buffer. -/
theorem terminator_astray :
    (Ext2Image smallVolume ∧ HasRoom smallVolume [0x61#8] 1 ∧
      HasRoom smallVolume [0x61#8] (256 * 1024)) ∧
    (∃ ino v', (ext2Touch clearEnv [0x61#8] (fun _ => 7#8) 1).run smallVolume = some (ino, v') ∧
      v'.disk 0#32 ≠ smallVolume.disk 0#32 ∧
      ¬((0#32 : U32) ∈ ownBlocks smallVolume ino ∨ IsFree smallVolume 0#32)) ∧
    (ext2Touch clearEnv [0x61#8] (fun _ => 7#8) (256 * 1024)).run smallVolume = none := by
  have image := smallVolume_image
  have one : HasRoom smallVolume [0x61#8] 1 := smallVolume_room (by decide) (by decide)
  have many : HasRoom smallVolume [0x61#8] (256 * 1024) :=
    smallVolume_room (by decide) (by decide)
  refine ⟨⟨image, one, many⟩, ?_, ?_⟩
  · obtain ⟨index, v', used, ran, created⟩ :=
      ext2Touch_run (fun _ => 7#8) image one clearEnv_zero (by decide)
    refine ⟨_, v', ran, ?_, created.boot_foreign image⟩
    rw [created.boot]
    intro same
    have word := (bootAfter_eq_iff _ _).mp same (by decide)
    exact absurd word (by decide +kernel)
  · exact ext2Touch_overrun _ _ _ clearEnv_zero (by decide) (by decide)

end Crunchy
