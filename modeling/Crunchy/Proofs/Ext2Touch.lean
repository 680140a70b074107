/-
Module: Crunchy.Proofs.Ext2Touch
Purpose: A whole `ext2_touch` on a well-formed volume: the file it leaves behind,
  and the blocks it changes on the disk.
Trusted boundary: none
Main exports: Ext2Image, HasRoom, Created, ext2Touch_run, ext2Touch_overrun
-/
import Crunchy.Proofs.Ext2Directory
import Crunchy.Proofs.Ext2Files

namespace Crunchy

open Lib List Option

/-! ### Well-formed volumes -/

/-- The block of the inode bitmap. -/
def inodeBitmapOf (v : Buffered U32 Bytes) : U32 := get32 (v.view 2#32) 4

/-- The first block of the inode table. -/
def inodeTableOf (v : Buffered U32 Bytes) : U32 := get32 (v.view 2#32) 8

/-- The number of inodes in the group. -/
def inodeCountOf (v : Buffered U32 Bytes) : Nat := (get32 (v.view 1#32) 40).toNat

/-- The first block of the root directory; its inode is the second one. -/
def rootBlockOf (v : Buffered U32 Bytes) : U32 := get32 (v.view (inodeTableOf v)) 168

/-- The blocks of the inode table. -/
def tableBlocks (v : Buffered U32 Bytes) : List U32 :=
  (List.range ((inodeCountOf v + 7) / 8)).map fun k => inodeTableOf v + BitVec.ofNat 32 k

/-- The blocks that are no file's: boot block, superblock, group descriptors,
bitmaps, and the blocks of the root directory and of the inode table. -/
def reservedBlocks (v : Buffered U32 Bytes) : List U32 :=
  0#32 :: 1#32 :: 2#32 :: blockBitmapOf v :: inodeBitmapOf v :: rootBlockOf v :: tableBlocks v

/-- A well-formed ext2 volume, as far as the code looks at it, which is at its first
block group; all buffers are written back. -/
structure Ext2Image (v : Buffered U32 Bytes) : Prop where
  magic : get16 (v.view 1#32) 56 = ext2Magic
  rootInode : 2 ≤ inodeCountOf v
  inodes : inodeCountOf v ≤ bitCount
  distinct : (reservedBlocks v).Nodup
  inUse : ∀ x ∈ reservedBlocks v, ¬IsFree v x
  rootInUse : bitSet (v.view (inodeBitmapOf v)) 1 = true
  coherent : v.view = v.disk

variable {v w v' : Buffered U32 Bytes} {used : List U32} {env : Ext2Env} {x indirect : U32}
  {i i' data dir : Bytes} {n q index : Nat} {name : List (BitVec 8)}

namespace Ext2Image

theorem blockBitmap_apart (image : Ext2Image v) :
    blockBitmapOf v ≠ 0#32 ∧ blockBitmapOf v ≠ 1#32 ∧ blockBitmapOf v ≠ 2#32 := by
  have distinct := image.distinct
  simp only [reservedBlocks, List.Nodup, pairwise_cons] at distinct
  obtain ⟨boot, super, group, _⟩ := distinct
  exact ⟨(boot _ (by simp)).symm, (super _ (by simp)).symm, (group _ (by simp)).symm⟩

theorem inodeBitmap_apart (image : Ext2Image v) :
    inodeBitmapOf v ≠ 0#32 ∧ inodeBitmapOf v ≠ 1#32 ∧ inodeBitmapOf v ≠ 2#32 ∧
      inodeBitmapOf v ≠ blockBitmapOf v := by
  have distinct := image.distinct
  simp only [reservedBlocks, List.Nodup, pairwise_cons] at distinct
  obtain ⟨boot, super, group, bitmap, _⟩ := distinct
  exact ⟨(boot _ (by simp)).symm, (super _ (by simp)).symm, (group _ (by simp)).symm,
    (bitmap _ (by simp)).symm⟩

theorem root_apart (image : Ext2Image v) :
    rootBlockOf v ≠ 0#32 ∧ rootBlockOf v ≠ 1#32 ∧ rootBlockOf v ≠ 2#32 ∧
      rootBlockOf v ≠ blockBitmapOf v ∧ rootBlockOf v ≠ inodeBitmapOf v := by
  have distinct := image.distinct
  simp only [reservedBlocks, List.Nodup, pairwise_cons] at distinct
  obtain ⟨boot, super, group, bitmap, inodes, _⟩ := distinct
  exact ⟨(boot _ (by simp)).symm, (super _ (by simp)).symm, (group _ (by simp)).symm,
    (bitmap _ (by simp)).symm, (inodes _ (by simp)).symm⟩

theorem inodeNumber_ne_zero (image : Ext2Image v) (inGroup : index < inodeCountOf v) :
    BitVec.ofNat 32 (index + 1) ≠ 0#32 := by
  intro isZero
  have number := congrArg BitVec.toNat isZero
  rw [toNat_bitNumber (Nat.lt_of_lt_of_le inGroup image.inodes)] at number
  exact Nat.succ_ne_zero index number

theorem slot_mem (inGroup : index < inodeCountOf v) :
    slotBlock (inodeTableOf v) index ∈ tableBlocks v :=
  mem_map.mpr ⟨index / 8, mem_range.mpr (by omega), rfl⟩

theorem slot_apart (image : Ext2Image v) (inGroup : index < inodeCountOf v) :
    slotBlock (inodeTableOf v) index ≠ 0#32 ∧ slotBlock (inodeTableOf v) index ≠ 1#32 ∧
      slotBlock (inodeTableOf v) index ≠ 2#32 ∧
      slotBlock (inodeTableOf v) index ≠ blockBitmapOf v ∧
      slotBlock (inodeTableOf v) index ≠ inodeBitmapOf v ∧
      slotBlock (inodeTableOf v) index ≠ rootBlockOf v := by
  have distinct := image.distinct
  have member := slot_mem inGroup
  simp only [reservedBlocks, List.Nodup, pairwise_cons] at distinct
  obtain ⟨boot, super, group, bitmap, inodes, root, _⟩ := distinct
  exact ⟨(boot _ (by simp [member])).symm, (super _ (by simp [member])).symm,
    (group _ (by simp [member])).symm, (bitmap _ (by simp [member])).symm,
    (inodes _ (by simp [member])).symm, (root _ member).symm⟩

end Ext2Image

/-- A volume that differs from `v` only in the boot block and the inode bitmap. -/
structure Based (v w : Buffered U32 Bytes) : Prop where
  view : ∀ y, y ≠ 0#32 → y ≠ inodeBitmapOf v → w.view y = v.view y
  disk : ∀ y, y ≠ 0#32 → y ≠ inodeBitmapOf v → w.disk y = v.disk y

namespace Based

theorem put (based : Based v w) (data : Bytes) (either : x = 0#32 ∨ x = inodeBitmapOf v) :
    Based v (w.put x data) where
  view y notBoot notBitmap := by
    rcases either with rfl | rfl
    · rw [Buffered.put_view_other notBoot, based.view y notBoot notBitmap]
    · rw [Buffered.put_view_other notBitmap, based.view y notBoot notBitmap]
  disk y notBoot notBitmap := by
    rcases either with rfl | rfl
    · rw [Buffered.put_disk_other notBoot, based.disk y notBoot notBitmap]
    · rw [Buffered.put_disk_other notBitmap, based.disk y notBoot notBitmap]

theorem super (based : Based v w) (image : Ext2Image v) : w.view 1#32 = v.view 1#32 :=
  based.view _ (by decide) image.inodeBitmap_apart.2.1.symm

theorem group (based : Based v w) (image : Ext2Image v) : w.view 2#32 = v.view 2#32 :=
  based.view _ (by decide) image.inodeBitmap_apart.2.2.1.symm

theorem blockBitmap (based : Based v w) (image : Ext2Image v) :
    blockBitmapOf w = blockBitmapOf v := by
  rw [blockBitmapOf, based.group image, blockBitmapOf]

theorem freeBits (based : Based v w) (image : Ext2Image v) :
    w.view (blockBitmapOf w) = v.view (blockBitmapOf v) := by
  rw [based.blockBitmap image]
  exact based.view _ image.blockBitmap_apart.1 image.inodeBitmap_apart.2.2.2.symm

theorem isFree (based : Based v w) (image : Ext2Image v) : IsFree w x ↔ IsFree v x := by
  rw [IsFree, based.freeBits image, IsFree]

/-- Free blocks are not reserved. -/
theorem ground (based : Based v w) (image : Ext2Image v) : Ground w := by
  have bitmap := based.blockBitmap image
  refine ⟨?_, ?_, ?_, ?_⟩
  · rw [bitmap]
    exact image.blockBitmap_apart.1
  · rw [bitmap]
    exact image.blockBitmap_apart.2.1
  · rw [bitmap]
    exact image.blockBitmap_apart.2.2
  · intro x free
    rw [based.isFree image] at free
    have notReserved : ∀ y ∈ reservedBlocks v, x ≠ y := by
      rintro y reserved rfl
      exact image.inUse x reserved free
    rw [bitmap]
    exact ⟨notReserved _ (by simp [reservedBlocks]), notReserved _ (by simp [reservedBlocks]),
      notReserved _ (by simp [reservedBlocks]), notReserved _ (by simp [reservedBlocks])⟩

end Based

/-- What the code reads of superblock and group descriptors is as in `v`. -/
structure SameLayout (v v' : Buffered U32 Bytes) : Prop where
  magic : get16 (v'.view 1#32) 56 = ext2Magic
  count : get32 (v'.view 1#32) 40 = get32 (v.view 1#32) 40
  table : get32 (v'.view 2#32) 8 = inodeTableOf v

namespace SameLayout

/-- Taking blocks only changes the counters. -/
theorem of_taken (image : Ext2Image v) (based : Based v w) (taken : Taken w v' used) :
    SameLayout v v' where
  magic := by
    rw [get16_congr fun i start _ => taken.super i (by omega), based.super image, image.magic]
  count := by
    rw [get32_congr fun i start _ => taken.super i (by omega), based.super image]
  table := by
    rw [get32_congr fun i _ stop => taken.group i (by omega), based.group image, inodeTableOf]

theorem put (same : SameLayout v v') (notSuper : x ≠ 1#32) (notGroup : x ≠ 2#32) (data : Bytes) :
    SameLayout v (v'.put x data) where
  magic := by
    rw [Buffered.put_view_other notSuper.symm]
    exact same.magic
  count := by
    rw [Buffered.put_view_other notSuper.symm]
    exact same.count
  table := by
    rw [Buffered.put_view_other notGroup.symm]
    exact same.table

theorem findInode_run (same : SameLayout v v') (image : Ext2Image v)
    (inGroup : index < inodeCountOf v) :
    (findInode (BitVec.ofNat 32 (index + 1))).run v' =
      some ((slotBlock (inodeTableOf v) index, slotOffset index), v') := by
  apply Crunchy.findInode_run
  · rw [same.count]
    exact inGroup
  · rw [same.count]
    exact image.inodes
  · exact same.table

theorem ext2Inode_run (same : SameLayout v v') (image : Ext2Image v)
    (inGroup : index < inodeCountOf v) :
    (ext2Inode (BitVec.ofNat 32 (index + 1))).run v' =
      some ((slotBlock (inodeTableOf v) index, slotOffset index), v') := by
  simp only [ext2Inode, Access.run_bind, run_ext2Superblock, bind_some, same.magic,
    BEq.rfl, if_true]
  exact same.findInode_run image inGroup

end SameLayout

/-! ### The file behind the loop -/

/-- The file of inode `i` has the first `n` bytes of `data`, in the blocks `used`;
the inode counts one block more than there are. -/
structure Stored (v : Buffered U32 Bytes) (i data : Bytes) (n : Nat) (used : List U32) : Prop where
  holds : FileHolds v i data n (blockCount n)
  mine : ∀ j < blockCount n, filePointer v i j ∈ used
  link : 12 < blockCount n → get32 i 88 ∈ used
  unset : ∀ j, blockCount n ≤ j → j ≤ 12 → get32 i (40 + 4 * j) = 0#32
  sectors : get32 i 28 = BitVec.ofNat 32 (2 * (blockCount n + 1))

namespace Stored

/-- A file stays as long as its blocks do. -/
theorem frame (stored : Stored v i data n used) (same : ∀ x ∈ used, v'.view x = v.view x) :
    Stored v' i data n used := by
  have pointer : ∀ j < blockCount n, filePointer v' i j = filePointer v i j := by
    intro j before
    apply filePointer_congr (fun _ => rfl)
    intro many
    rw [same _ (stored.link (Nat.lt_of_le_of_lt many before))]
  constructor
  case holds =>
    intro j before k inBlock inFile
    rw [pointer j before, same _ (stored.mine j before)]
    exact stored.holds j before k inBlock inFile
  case mine =>
    intro j before
    rw [pointer j before]
    exact stored.mine j before
  case link => exact stored.link
  case unset => exact stored.unset
  case sectors => exact stored.sectors

/-- A copy of the inode is as good. -/
theorem inode (stored : Stored v i data n used)
    (same : ∀ o, o + 4 ≤ 128 → get32 i' o = get32 i o) : Stored v i' data n used := by
  have pointer : ∀ j, filePointer v i' j = filePointer v i j := fun j =>
    filePointer_inode fun k few => same _ (by omega)
  constructor
  case holds =>
    intro j before k inBlock inFile
    rw [pointer j]
    exact stored.holds j before k inBlock inFile
  case mine =>
    intro j before
    rw [pointer j]
    exact stored.mine j before
  case link =>
    intro many
    rw [same 88 (by decide)]
    exact stored.link many
  case unset =>
    intro j start few
    rw [same _ (by omega)]
    exact stored.unset j start few
  case sectors =>
    rw [same 28 (by decide)]
    exact stored.sectors

end Stored

/-- The inode that is linked still counts what it counted. -/
theorem linkBlock_sectors {b : U32}
    (ran : (linkBlock env q indirect i).run v = some ((b, indirect', i'), v')) :
    get32 i' 28 = get32 i 28 := by
  have kept : ∀ w, get32 (put32 i (InodeField.block q) w) 28 = get32 i 28 := fun w =>
    get32_put32_apart (Or.inl (by rw [InodeField.block]; omega))
  simp only [linkBlock, Access.run_bind] at ran
  obtain ⟨⟨blockNum, v₁⟩, _, ran⟩ := bind_eq_some_iff.mp ran
  split at ran
  · cases ran
    exact kept _
  · split at ran
    · simp only [Access.run_bind] at ran
      obtain ⟨⟨dataBlock, v₂⟩, _, ran⟩ := bind_eq_some_iff.mp ran
      obtain ⟨⟨_, v₃⟩, _, ran⟩ := bind_eq_some_iff.mp ran
      cases ran
      exact kept _
    · split at ran
      · simp only [Access.run_bind] at ran
        obtain ⟨⟨_, v₂⟩, _, ran⟩ := bind_eq_some_iff.mp ran
        cases ran
        rfl
      · cases ran
        rfl

/-- Every round counts two sectors, whatever becomes of the block. -/
theorem touchLoop_sectors {fuel sz : Nat}
    (ran : (touchLoop env data fuel q sz indirect i).run v = some ((indirect', i'), v')) :
    get32 i' 28 = get32 i 28 + BitVec.ofNat 32 (2 * blockCount sz) := by
  induction fuel generalizing q sz indirect i v with
  | zero =>
    rw [touchLoop] at ran
    split at ran
    · rename_i ended
      cases ran
      rw [ended]
      simp [blockCount]
    · cases ran
  | succ fuel ih =>
    rw [touchLoop] at ran
    split at ran
    · rename_i ended
      cases ran
      rw [ended]
      simp [blockCount]
    · rename_i more
      simp only [touchBlock, Access.run_bind] at ran
      obtain ⟨⟨⟨indirect₁, i₁⟩, v₁⟩, body, ran⟩ := bind_eq_some_iff.mp ran
      obtain ⟨⟨⟨b, indirect₂, i₂⟩, v₂⟩, linked, body⟩ := bind_eq_some_iff.mp body
      obtain ⟨⟨_, v₃⟩, _, body⟩ := bind_eq_some_iff.mp body
      obtain ⟨⟨_, v₄⟩, _, body⟩ := bind_eq_some_iff.mp body
      cases body
      rw [ih ran, InodeField.blocks, get32_put32, linkBlock_sectors linked, blockCount_chunk more,
        Nat.mul_add, Nat.mul_one, BitVec.ofNat_add, BitVec.add_assoc, BitVec.add_comm 2#32]

/-- The report reads only. -/
theorem touchReport_run (indirect : U32) {count : Nat} (inside : q + count ≤ 269) :
    (touchReport indirect count q).run v = some ((), v) := by
  induction count generalizing q with
  | zero => rfl
  | succ count ih =>
    have rest : (touchReport indirect count (q + 1)).run v = some ((), v) :=
      ih (by omega)
    by_cases printed : 12 < q
    · have inBlock : q - 13 < 256 := by omega
      simp only [touchReport, if_pos printed, Access.run_bind, ext2ReadIndirect_run inBlock,
        bind_some, rest]
    · simp only [touchReport, if_neg printed, rest]

/-- The number of blocks that the inode counts. -/
theorem sectors_half (few : q < 2 ^ 31) : (BitVec.ofNat 32 (2 * q)).toNat / 2 = q := by
  rw [BitVec.toNat_ofNat]
  omega

/-- The terminator is written to entry `q` of the indirect block, which is block 0
for a file without one. -/
theorem touchTerminate_run (sectors : get32 i 28 = BitVec.ofNat 32 (2 * q)) (few : q ≤ 255) :
    (touchTerminate indirect i).run v = some (put32 i 28 (BitVec.ofNat 32 (2 * (q + 1))),
      v.put indirect (put32 (v.view indirect) (q * 4) 0#32)) := by
  have more : BitVec.ofNat 32 (2 * q) + 2#32 = BitVec.ofNat 32 (2 * (q + 1)) :=
    (BitVec.ofNat_add (2 * q) 2).symm
  have half : (BitVec.ofNat 32 (2 * q)).toNat / 2 = q := sectors_half (by omega)
  have half' : (BitVec.ofNat 32 (2 * (q + 1))).toNat / 2 = q + 1 := sectors_half (by omega)
  have reported : (touchReport indirect (q + 1 + 1) 0).run
      (v.put indirect (put32 (v.view indirect) (q * 4) 0#32)) = some ((), _) :=
    touchReport_run indirect (by omega)
  simp only [touchTerminate, InodeField.blocks, sectors, half, more, get32_put32, half',
    Access.run_bind, ext2WriteIndirect_run (Nat.lt_succ_of_le few), bind_some, reported,
    Access.run_pure]

/-- Behind entry 255 there is no indirect block any more. -/
theorem touchTerminate_overrun (sectors : get32 i 28 = BitVec.ofNat 32 (2 * q)) (many : 256 ≤ q)
    (few : q < 2 ^ 31) : (touchTerminate indirect i).run v = none := by
  simp only [touchTerminate, InodeField.blocks, sectors, sectors_half few, Access.run_bind,
    ext2WriteIndirect_outside many, bind_none]

/-- The bytes of block 0 after the terminator of a file of `q` blocks. -/
def bootAfter (boot : Bytes) (q : Nat) : Bytes := if q ≤ 12 then put32 boot (q * 4) 0#32 else boot

namespace Filled

/-- The terminator does no harm to the file. -/
theorem stored (filled : Filled w v data n (blockCount n) indirect i used) :
    Stored (v.put indirect (put32 (v.view indirect) (blockCount n * 4) 0#32))
      (put32 i 28 (BitVec.ofNat 32 (2 * (blockCount n + 1)))) data n used := by
  have pointers := filled.pointers
  have inode : ∀ o, 40 ≤ o → get32 (put32 i 28 (BitVec.ofNat 32 (2 * (blockCount n + 1)))) o =
      get32 i o := fun o later => get32_put32_apart (by omega)
  have pointer : ∀ j < blockCount n,
      filePointer (v.put indirect (put32 (v.view indirect) (blockCount n * 4) 0#32))
        (put32 i 28 (BitVec.ofNat 32 (2 * (blockCount n + 1)))) j = filePointer v i j := by
    intro j before
    apply filePointer_congr
    · intro _
      exact inode _ (by omega)
    · intro many
      rw [inode _ (by decide), (pointers.link (Nat.lt_of_le_of_lt many before)).1,
        Buffered.put_view_self, get32_put32_apart (by omega)]
  constructor
  case holds =>
    intro j before k inBlock inFile
    rw [pointer j before, Buffered.put_view_other (pointers.apart j before)]
    exact filled.holds j before k inBlock inFile
  case mine =>
    intro j before
    rw [pointer j before]
    exact pointers.mine j before
  case link =>
    intro many
    rw [inode 88 (by decide), (pointers.link many).1]
    exact (pointers.link many).2
  case unset =>
    intro j start few
    rw [inode _ (by omega)]
    exact pointers.unset j start few
  case sectors => exact get32_put32 ..

/-- The terminator changes the indirect block, or block 0 in its place. -/
theorem terminated {base : Buffered U32 Bytes} (filled : Filled w v data n q indirect i used)
    (image : Ext2Image base) (based : Based base w) (coherent : w.view 0#32 = w.disk 0#32) :
    ∃ w', Based base w' ∧ w'.disk 0#32 = bootAfter (w.disk 0#32) q ∧
      Taken w' (v.put indirect (put32 (v.view indirect) (q * 4) 0#32)) used := by
  have taken := filled.pointers.taken
  have ground := based.ground image
  by_cases few : q ≤ 12
  · -- `indirect` still has its initial value, so the terminator goes to block 0
    have noLink := filled.pointers.direct few
    have notUsed : (0#32 : U32) ∉ used := fun isUsed =>
      (ground.free _ (taken.free _ isUsed)).1 rfl
    have same : v.view 0#32 = w.view 0#32 :=
      taken.view _ notUsed ground.notBoot.symm (by decide) (by decide)
    refine ⟨w.put 0#32 (put32 (w.view 0#32) (q * 4) 0#32), based.put _ (Or.inl rfl), ?_, ?_⟩
    · rw [Buffered.put_disk_self, coherent, bootAfter, if_pos few]
    · rw [noLink, same]
      exact taken.boot ground _
  · refine ⟨w, based, (if_neg few).symm, ?_⟩
    exact taken.put ground (filled.pointers.link (Nat.not_le.mp few)).2 _

end Filled

/-! ### The inode table and the root directory -/

namespace SameLayout

variable {base : Buffered U32 Bytes}

theorem touchWriteInode_run (same : SameLayout base v) (image : Ext2Image base)
    (inGroup : index < inodeCountOf base) :
    (touchWriteInode (BitVec.ofNat 32 (index + 1)) i).run v = some ((),
      v.put (slotBlock (inodeTableOf base) index)
        (patch (v.view (slotBlock (inodeTableOf base) index)) (slotOffset index) 128 i)) := by
  simp only [touchWriteInode, Access.run_bind, same.findInode_run image inGroup, bind_some,
    run_bufferRead, run_bufferStore, run_bufferWrite, store_write, inodeSize]

/-- The entry goes to the directory block that the root inode names. -/
theorem touchEnter_eq (env : Ext2Env) (inodeNum : U32) (same : SameLayout base v)
    (image : Ext2Image base)
    (root : get32 (v.view (inodeTableOf base)) 168 = rootBlockOf base) :
    (touchEnter env name inodeNum).run v =
      ((touchDirectory (rootBlockOf base) name inodeNum).run v).bind fun entered =>
        if entered.1 then
          ((countInode env (inodeSlot (get32 (entered.2.view 1#32) 40) inodeNum).1.toNat).run
            entered.2).bind fun counted => some (inodeNum, counted.2)
        else some (0#32, entered.2) := by
  have found : (ext2Inode 2#32).run v = some ((slotBlock (inodeTableOf base) 1, slotOffset 1), v) :=
    same.ext2Inode_run image image.rootInode
  have table : slotBlock (inodeTableOf base) 1 = inodeTableOf base := by simp [slotBlock]
  have rootPointer : get32 (v.view (inodeTableOf base)) (slotOffset 1 + InodeField.block 0) =
      rootBlockOf base := root
  simp only [touchEnter, Access.run_bind, found, table, bind_some, run_bufferRead,
    rootPointer, ext2Super, Superblock.inodesPerGroup]
  congr 1
  funext entered
  obtain ⟨ok, u⟩ := entered
  cases ok with
  | false => rfl
  | true =>
    simp only [if_true, Access.run_bind, run_bufferRead, bind_some, Access.run_pure]

theorem touchEnter_run (env : Ext2Env) (same : SameLayout base v) (image : Ext2Image base)
    (inGroup : index < inodeCountOf base)
    (root : get32 (v.view (inodeTableOf base)) 168 = rootBlockOf base) {last : Nat}
    (room : DirRoom (v.view (rootBlockOf base)) name last) :
    ∃ dir super group, dir = enteredDir (v.view (rootBlockOf base)) last
        (BitVec.ofNat 32 (index + 1)) name ∧
      (touchEnter env name (BitVec.ofNat 32 (index + 1))).run v =
        some (BitVec.ofNat 32 (index + 1),
          ((v.put (rootBlockOf base) dir).put 1#32 super).put 2#32 group) ∧
      SameLayout base (((v.put (rootBlockOf base) dir).put 1#32 super).put 2#32 group) := by
  have entered := touchDirectory_run (BitVec.ofNat 32 (index + 1)) room
  generalize isDir : enteredDir (v.view (rootBlockOf base)) last (BitVec.ofNat 32 (index + 1)) name
    = dir at entered
  have after := same.put image.root_apart.2.1 image.root_apart.2.2.1 dir
  have counted := countInode_run env after.magic
  have slot := inodeSlot_eq inGroup image.inodes
  refine ⟨dir, superCounted env ((v.put (rootBlockOf base) dir).view 1#32),
    groupCounted ((v.put (rootBlockOf base) dir).view 2#32), rfl, ?_, ?_⟩
  · rw [same.touchEnter_eq env _ image root, entered]
    simp only [bind_some, if_true, after.count, slot]
    show ((countInode env 0).run _).bind _ = _
    rw [counted]
    rfl
  · have other : (1#32 : U32) ≠ 2#32 := by decide
    constructor
    · rw [Buffered.put_view_other other, Buffered.put_view_self, ← after.magic]
      exact get16_congr fun i start stop => superCounted_other env _ (by omega)
    · rw [Buffered.put_view_other other, Buffered.put_view_self, ← after.count]
      exact get32_congr fun i start stop => superCounted_other env _ (by omega)
    · rw [Buffered.put_view_self, ← after.table]
      exact get32_congr fun i start stop => groupCounted_other _ (by omega)

end SameLayout

/-! ### The whole call -/

/-- There is room for a file of `n` bytes: blocks, an inode, and an entry in the
root directory. -/
structure HasRoom (v : Buffered U32 Bytes) (name : List (BitVec 8)) (n : Nat) : Prop where
  blocks : neededBlocks (blockCount n) ≤ (freeBits (v.view (blockBitmapOf v))).card
  inode : ∃ k ∈ freeBits (v.view (inodeBitmapOf v)), k < inodeCountOf v
  entry : ∃ last, DirRoom (v.view (rootBlockOf v)) name last

/-- There are blocks and an inode for a file of `n` bytes. -/
structure HasSpace (v : Buffered U32 Bytes) (n : Nat) : Prop where
  blocks : neededBlocks (blockCount n) ≤ (freeBits (v.view (blockBitmapOf v))).card
  inode : ∃ k ∈ freeBits (v.view (inodeBitmapOf v)), k < inodeCountOf v

theorem HasRoom.space (room : HasRoom v name n) : HasSpace v n := ⟨room.blocks, room.inode⟩

/-- The memory that is allocated for the inode is zero. -/
def Ext2Env.ZeroInode (env : Ext2Env) : Prop := ∀ j, env.inodeMemory j = 0#8

/-- The inode at a place of the inode table. -/
def inodeAt (v : Buffered U32 Bytes) (table : U32) (index : Nat) : Bytes :=
  fun j => v.view (slotBlock table index) (slotOffset index + j)

/-- The volume `v'` is `v` with a new file of `n` bytes in inode `index + 1`. -/
structure Created (v v' : Buffered U32 Bytes) (data : Bytes) (n index : Nat)
    (used : List U32) : Prop where
  inGroup : index < inodeCountOf v
  layout : SameLayout v v'
  free : ∀ x ∈ used, IsFree v x
  stored : Stored v' (inodeAt v' (inodeTableOf v) index) data n used
  disk : ∀ x, x ∉ used → x ∉ [0#32, 1#32, 2#32, blockBitmapOf v, inodeBitmapOf v,
    slotBlock (inodeTableOf v) index, rootBlockOf v] → v'.disk x = v.disk x
  boot : v'.disk 0#32 = bootAfter (v.disk 0#32) (blockCount n)

/-- The fields of the new inode that the loop counts on. -/
theorem touchInode_zero (zero : env.ZeroInode) {o : Nat} (field : o = 28 ∨ 40 ≤ o) :
    get32 (touchInode env n) o = 0#32 := by
  have cleared : get32 env.inodeMemory o = 0#32 := by
    exact get32_congr fun i _ _ => zero i
  simp only [touchInode, InodeField.linksCount, InodeField.dtime, InodeField.mtime,
    InodeField.ctime, InodeField.atime, InodeField.size, InodeField.mode, put16, put32]
  rw [get32_patch_apart (by omega), get32_patch_apart (by omega), get32_patch_apart (by omega),
    get32_patch_apart (by omega), get32_patch_apart (by omega), get32_patch_apart (by omega),
    get32_patch_apart (by omega), cleared]

/-- The call up to the end of its loop: an inode that is not the root directory's
has been taken, and the blocks of the file have been filled. -/
structure Looped (env : Ext2Env) (v w v' : Buffered U32 Bytes) (data : Bytes) (n index : Nat)
    (indirect : U32) (i : Bytes) (used : List U32) : Prop where
  inGroup : index < inodeCountOf v
  notRoot : index ≠ 1
  based : Based v w
  bootView : w.view 0#32 = v.view 0#32
  bootDisk : w.disk 0#32 = v.disk 0#32
  allocated : (ext2AllocInode env).run v = some (BitVec.ofNat 32 (index + 1), w)
  looped : (touchLoop env data n 0 n 0#32 (touchInode env n)).run w = some ((indirect, i), v')
  filled : Filled w v' data n (blockCount n) indirect i used

/-- The loop starts with nothing. -/
theorem Filled.start (w : Buffered U32 Bytes) (data : Bytes) (n : Nat) (zero : env.ZeroInode) :
    Filled w w data n 0 0#32 (touchInode env n) [] := by
  constructor
  · exact Pointers.start w fun j _ => touchInode_zero zero (Or.inr (by omega))
  · intro j before
    omega
  · exact touchInode_zero zero (Or.inl rfl)

theorem Ext2Image.looped (data : Bytes) (image : Ext2Image v) (space : HasSpace v n)
    (zero : env.ZeroInode) (small : blockCount n ≤ 268) :
    ∃ index w v' indirect i used, Looped env v w v' data n index indirect i used := by
  obtain ⟨k, free, inGroup⟩ := space.inode
  obtain ⟨index, isFree, first, allocated⟩ := ext2AllocBit_run env ⟨k, free⟩
  have notRoot : index ≠ 1 := by
    rintro rfl
    have clear := (mem_freeBits.mp isFree).2
    rw [image.rootInUse] at clear
    cases clear
  let w := v.put (inodeBitmapOf v) (setBit (v.view (inodeBitmapOf v)) index)
  have based : Based v w := Based.put ⟨fun _ _ _ => rfl, fun _ _ _ => rfl⟩ _ (Or.inr rfl)
  have enough : neededBlocks (blockCount n) ≤ (freeBits (w.view (blockBitmapOf w))).card := by
    rw [based.freeBits image]
    exact space.blocks
  obtain ⟨indirect, i, v', used, looped, filled⟩ :=
    touchLoop_run env (based.ground image) enough small (Nat.sub_le n _) (Nat.zero_le _)
      (Filled.start w data n zero)
  have notBoot := image.inodeBitmap_apart.1
  have inode : (ext2AllocInode env).run v = some (BitVec.ofNat 32 (index + 1), w) := by
    simp only [ext2AllocInode, Access.run_bind, run_ext2Blockdesc, bind_some, GroupDesc.inodeBitmap]
    exact allocated
  exact ⟨index, w, v', indirect, i, used, Nat.lt_of_le_of_lt (first k free) inGroup, notRoot, based,
    Buffered.put_view_other notBoot.symm, Buffered.put_disk_other notBoot.symm, inode, looped,
    filled⟩

/-- What is left of the call after its loop. -/
theorem Looped.run_eq (looped : Looped env v w v' data n index indirect i used)
    (image : Ext2Image v) :
    (ext2Touch env name data n).run v = ((touchTerminate indirect i).run v').bind fun done =>
      ((touchWriteInode (BitVec.ofNat 32 (index + 1)) done.1).run done.2).bind fun wrote =>
        (touchEnter env name (BitVec.ofNat 32 (index + 1))).run wrote.2 := by
  simp only [ext2Touch, Access.run_bind, run_ext2Superblock, bind_some, image.magic,
    BEq.rfl, if_true, looped.allocated, looped.looped]

/-- The copy of an inode in the inode table reads as the inode does. -/
theorem get32_patch_inside {b source : Bytes} {start o count : Nat} (inside : o + 4 ≤ count) :
    get32 (fun j => patch b start count source (start + j)) o = get32 source o := by
  apply get32_congr
  intro k _ stop
  rw [patch_inside (Nat.le_add_right start k) (by omega), Nat.add_sub_cancel_left]

section Finish

variable {base : Buffered U32 Bytes}

/-- No reserved block is taken for the file. -/
theorem not_taken (image : Ext2Image base) (based : Based base w) (taken : Taken w v used)
    (reserved : x ∈ reservedBlocks base) : x ∉ used := fun isUsed =>
  image.inUse x reserved ((based.isFree image).mp (taken.free x isUsed))

/-- The blocks of root directory and inode table are as they were. -/
theorem view_kept (image : Ext2Image base) (based : Based base w) (taken : Taken w v used)
    (reserved : x ∈ reservedBlocks base) (notBoot : x ≠ 0#32) (notSuper : x ≠ 1#32)
    (notGroup : x ≠ 2#32) (notBitmap : x ≠ blockBitmapOf base)
    (notInodes : x ≠ inodeBitmapOf base) : v.view x = base.view x := by
  have other : x ≠ blockBitmapOf w := by
    rw [based.blockBitmap image]
    exact notBitmap
  exact (taken.view x (not_taken image based taken reserved) other notSuper notGroup).trans
    (based.view x notBoot notInodes)

/-- The first block of the inode table is as it was. -/
theorem table_kept (image : Ext2Image base) (based : Based base w) (taken : Taken w v used) :
    v.view (inodeTableOf base) = base.view (inodeTableOf base) := by
  have table : slotBlock (inodeTableOf base) 1 = inodeTableOf base := by simp [slotBlock]
  obtain ⟨notBoot, notSuper, notGroup, notBitmap, notInodes, _⟩ :=
    image.slot_apart image.rootInode
  rw [table] at notBoot notSuper notGroup notBitmap notInodes
  refine view_kept image based taken ?_ notBoot notSuper notGroup notBitmap notInodes
  rw [← table]
  simp [reservedBlocks, Ext2Image.slot_mem image.rootInode]

/-- The root directory is as it was. -/
theorem rootBlock_kept (image : Ext2Image base) (based : Based base w) (taken : Taken w v used) :
    v.view (rootBlockOf base) = base.view (rootBlockOf base) := by
  obtain ⟨notBoot, notSuper, notGroup, notBitmap, notInodes⟩ := image.root_apart
  exact view_kept image based taken (by simp [reservedBlocks]) notBoot notSuper notGroup notBitmap
    notInodes

/-- The root directory's inode is not written over. -/
theorem root_kept (image : Ext2Image base) (inGroup : index < inodeCountOf base)
    (notRoot : index ≠ 1)
    (same : v.view (inodeTableOf base) = base.view (inodeTableOf base)) :
    get32 ((v.put (slotBlock (inodeTableOf base) index)
      (patch (v.view (slotBlock (inodeTableOf base) index)) (slotOffset index) 128 i)).view
        (inodeTableOf base)) 168 = rootBlockOf base := by
  by_cases inTable : slotBlock (inodeTableOf base) index = inodeTableOf base
  · -- the new inode shares the block with the root directory's, in another slot
    have rootSlot : slotBlock (inodeTableOf base) 1 = inodeTableOf base := by simp [slotBlock]
    have apart := slot_apart (Nat.lt_of_lt_of_le inGroup image.inodes)
      (show 1 < bitCount by decide) (inTable.trans rootSlot.symm) notRoot
    have second : slotOffset 1 = 128 := rfl
    rw [inTable, Buffered.put_view_self, get32_patch_apart (by omega), same, rootBlockOf]
  · rw [Buffered.put_view_other (Ne.symm inTable), same, rootBlockOf]

/-- The sections behind the loop, on a volume that has the file's blocks. -/
private theorem finished (env : Ext2Env) (image : Ext2Image base) (based : Based base w)
    (taken : Taken w v used) (stored : Stored v i data n used)
    (inGroup : index < inodeCountOf base) (notRoot : index ≠ 1)
    (boot : w.disk 0#32 = bootAfter (base.disk 0#32) (blockCount n)) {last : Nat}
    (room : DirRoom (base.view (rootBlockOf base)) name last) :
    ∃ v', (((touchWriteInode (BitVec.ofNat 32 (index + 1)) i).run v).bind fun wrote =>
        (touchEnter env name (BitVec.ofNat 32 (index + 1))).run wrote.2) =
          some (BitVec.ofNat 32 (index + 1), v') ∧
      Created base v' data n index used := by
  obtain ⟨slotBoot, slotSuper, slotGroup, slotBitmap, slotInodes, slotRoot⟩ :=
    image.slot_apart inGroup
  have rootBoot := image.root_apart.1
  have slotReserved : slotBlock (inodeTableOf base) index ∈ reservedBlocks base := by
    simp [reservedBlocks, Ext2Image.slot_mem inGroup]
  have rootReserved : rootBlockOf base ∈ reservedBlocks base := by simp [reservedBlocks]
  have same := SameLayout.of_taken image based taken
  have root := root_kept (i := i) image inGroup notRoot (table_kept image based taken)
  rw [← rootBlock_kept image based taken, ← Buffered.put_view_other slotRoot.symm] at room
  obtain ⟨dir, super, group, _, entered, layout⟩ :=
    (same.put slotSuper slotGroup _).touchEnter_run env image inGroup root room
  rw [same.touchWriteInode_run image inGroup, bind_some]
  refine ⟨_, entered, inGroup, layout, ?_, ?_, ?_, ?_⟩
  · exact fun x isUsed => (based.isFree image).mp (taken.free x isUsed)
  · refine (stored.frame fun x isUsed => ?_).inode fun o inside => ?_
    · have notReserved : ∀ y ∈ reservedBlocks base, x ≠ y := by
        rintro y reserved rfl
        exact not_taken image based taken reserved isUsed
      rw [Buffered.put_view_other (notReserved 2#32 (by simp [reservedBlocks])),
        Buffered.put_view_other (notReserved 1#32 (by simp [reservedBlocks])),
        Buffered.put_view_other (notReserved _ rootReserved),
        Buffered.put_view_other (notReserved _ slotReserved)]
    · unfold inodeAt
      rw [Buffered.put_view_other slotGroup, Buffered.put_view_other slotSuper,
        Buffered.put_view_other slotRoot, Buffered.put_view_self]
      exact get32_patch_inside inside
  · intro x notUsed other
    simp only [mem_cons, not_mem_nil, or_false, not_or] at other
    obtain ⟨notBoot, notSuper, notGroup, notBitmap, notInodes, notSlot, notRoot⟩ := other
    rw [← based.blockBitmap image] at notBitmap
    rw [Buffered.put_disk_other notGroup, Buffered.put_disk_other notSuper,
      Buffered.put_disk_other notRoot, Buffered.put_disk_other notSlot,
      taken.disk x notUsed notBitmap, based.disk x notBoot notInodes]
  · have notUsed : (0#32 : U32) ∉ used :=
      not_taken image based taken (by simp [reservedBlocks])
    rw [Buffered.put_disk_other (by decide), Buffered.put_disk_other (by decide),
      Buffered.put_disk_other rootBoot.symm, Buffered.put_disk_other slotBoot.symm,
      taken.disk _ notUsed (based.ground image).notBoot.symm, boot]

end Finish

/-- The volume behind the terminator. -/
theorem Looped.terminated (looped : Looped env v w v' data n index indirect i used)
    (image : Ext2Image v) :
    ∃ w', Based v w' ∧ w'.disk 0#32 = bootAfter (v.disk 0#32) (blockCount n) ∧
      Taken w' (v'.put indirect (put32 (v'.view indirect) (blockCount n * 4) 0#32)) used := by
  have coherent : w.view 0#32 = w.disk 0#32 := by
    rw [looped.bootView, looped.bootDisk, image.coherent]
  rw [← looped.bootDisk]
  exact looped.filled.terminated image looped.based coherent

/-- The call up to its directory section: what is left is `touchEnter`, on a volume
whose root directory is as it was. -/
theorem Looped.entered (looped : Looped env v w v' data n index indirect i used)
    (image : Ext2Image v) (few : blockCount n ≤ 255) :
    ∃ u, (∀ name, (ext2Touch env name data n).run v =
        (touchEnter env name (BitVec.ofNat 32 (index + 1))).run u) ∧
      SameLayout v u ∧ get32 (u.view (inodeTableOf v)) 168 = rootBlockOf v ∧
      u.view (rootBlockOf v) = v.view (rootBlockOf v) ∧
      u.disk (rootBlockOf v) = v.disk (rootBlockOf v) := by
  obtain ⟨w₁, based, _, taken⟩ := looped.terminated image
  obtain ⟨_, slotSuper, slotGroup, _, _, slotRoot⟩ := image.slot_apart looped.inGroup
  obtain ⟨rootBoot, _, _, rootBitmap, rootInodes⟩ := image.root_apart
  have rootReserved : rootBlockOf v ∈ reservedBlocks v := by simp [reservedBlocks]
  have same := SameLayout.of_taken image based taken
  have otherBitmap : rootBlockOf v ≠ blockBitmapOf w₁ := by
    rw [based.blockBitmap image]
    exact rootBitmap
  refine ⟨_, fun name => ?_, same.put slotSuper slotGroup _,
    root_kept (i := put32 i 28 (BitVec.ofNat 32 (2 * (blockCount n + 1)))) image looped.inGroup
      looped.notRoot (table_kept image based taken), ?_, ?_⟩
  · rw [looped.run_eq image, touchTerminate_run looped.filled.sectors few, bind_some,
      same.touchWriteInode_run image looped.inGroup, bind_some]
  · rw [Buffered.put_view_other slotRoot.symm]
    exact rootBlock_kept image based taken
  · rw [Buffered.put_disk_other slotRoot.symm,
      taken.disk _ (not_taken image based taken rootReserved) otherBitmap,
      based.disk _ rootBoot rootInodes]

/-- With room for the file and entries for its blocks, the call returns, and the
file is there. -/
theorem ext2Touch_run (data : Bytes) (image : Ext2Image v) (room : HasRoom v name n)
    (zero : env.ZeroInode) (few : blockCount n ≤ 255) :
    ∃ index v' used, (ext2Touch env name data n).run v = some (BitVec.ofNat 32 (index + 1), v') ∧
      Created v v' data n index used := by
  obtain ⟨index, w, v₂, indirect, i, used, looped⟩ := image.looped data room.space zero (by omega)
  obtain ⟨w₃, based, boot, taken⟩ := looped.terminated image
  obtain ⟨last, entry⟩ := room.entry
  obtain ⟨v', finish, created⟩ := finished env image based taken looped.filled.stored
    looped.inGroup looped.notRoot boot entry
  refine ⟨index, v', used, ?_, created⟩
  rw [looped.run_eq image, touchTerminate_run looped.filled.sectors few, bind_some]
  exact finish

/-- From 256 blocks on the terminator is written behind the end of the indirect
block's buffer, on whatever volume. -/
theorem ext2Touch_overrun (name : List (BitVec 8)) (data : Bytes) (v : Buffered U32 Bytes)
    (zero : env.ZeroInode) (many : 256 ≤ blockCount n) (sized : n < 2 ^ 32) :
    (ext2Touch env name data n).run v = none := by
  rw [eq_none_iff_forall_ne_some]
  intro result ran
  simp only [ext2Touch, Access.run_bind, run_ext2Superblock, bind_some] at ran
  split at ran
  · simp only [Access.run_bind] at ran
    obtain ⟨⟨inodeNum, w⟩, _, ran⟩ := bind_eq_some_iff.mp ran
    obtain ⟨⟨⟨indirect, i⟩, v'⟩, looped, ran⟩ := bind_eq_some_iff.mp ran
    obtain ⟨_, terminated, _⟩ := bind_eq_some_iff.mp ran
    have sectors := touchLoop_sectors looped
    rw [touchInode_zero zero (Or.inl rfl), BitVec.zero_add] at sectors
    have few : blockCount n < 2 ^ 31 := by
      rw [blockCount]
      omega
    rw [touchTerminate_overrun sectors many few] at terminated
    cases terminated
  · cases ran

end Crunchy
