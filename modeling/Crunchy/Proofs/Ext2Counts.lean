/-
Module: Crunchy.Proofs.Ext2Counts
Purpose: The free-space books of a volume over `ext2_touch`: how many bits of the
  bitmaps a call sets, and by how much it lowers the counters of superblock and group
  descriptor.
Trusted boundary: none
Main exports: Tallied, Prepared, ext2Touch_prepared, Balanced, touch_balanced_iff
-/
import Crunchy.Proofs.Ext2Dirents

namespace Crunchy

open Lib List Option

variable {v w v' u : Buffered U32 Bytes} {used : List U32} {env : Ext2Env}
  {x indirect indirect' : U32} {i i' data : Bytes} {n q index : Nat} {name : List (BitVec 8)}

/-! ### The loop

What follows needs nothing of the memory `malloc` returns for the inode, and holds
for files of any size: it only says what a call that gets through has counted. -/

/-- From `w` to `v` the bits of the blocks `used` have been set, and the bitmap is on
the disk. -/
structure BitsTaken (w v : Buffered U32 Bytes) (used : List U32) : Prop where
  taken : Taken w v used
  card : (freeBits (v.view (blockBitmapOf w))).card + used.length =
    (freeBits (w.view (blockBitmapOf w))).card
  written : v.disk (blockBitmapOf w) = v.view (blockBitmapOf w)

namespace BitsTaken

theorem alloc (marked : BitsTaken w v used) (ground : Ground w)
    (ran : (ext2AllocBlock env).run v = some (x, v')) :
    BitsTaken w v' (x :: used) ∧ ∀ y, y ≠ blockBitmapOf w → v'.view y = v.view y := by
  rw [marked.taken.allocBlock_eq env] at ran
  obtain ⟨num, free, _, rfl, rfl⟩ := ext2AllocBit_eq_some ran
  refine ⟨⟨(marked.taken.setBit ground free).2, ?_, ?_⟩, fun y other =>
    Buffered.put_view_other other⟩
  · have counted := card_freeBits_setBit free
    have before := marked.card
    rw [Buffered.put_view_self, length_cons]
    omega
  · rw [Buffered.put_disk_self, Buffered.put_view_self]

theorem put (marked : BitsTaken w v used) (ground : Ground w) (isUsed : x ∈ used) (data : Bytes) :
    BitsTaken w (v.put x data) used := by
  have apart := (ground.free x (marked.taken.free x isUsed)).2.2.2.symm
  refine ⟨marked.taken.put ground isUsed data, ?_, ?_⟩
  · rw [Buffered.put_view_other apart]
    exact marked.card
  · rw [Buffered.put_disk_other apart, Buffered.put_view_other apart]
    exact marked.written

theorem put_view (marked : BitsTaken w v used) (ground : Ground w) (isUsed : x ∈ used)
    (data : Bytes) :
    (v.put x data).view 1#32 = v.view 1#32 ∧ (v.put x data).view 2#32 = v.view 2#32 := by
  obtain ⟨_, notSuper, notGroup, _⟩ := ground.free x (marked.taken.free x isUsed)
  exact ⟨Buffered.put_view_other notSuper.symm, Buffered.put_view_other notGroup.symm⟩

end BitsTaken

/-- The blocks for the first `q` blocks of a file, and its indirect block. -/
structure FileBlocks (w v : Buffered U32 Bytes) (q : Nat) (indirect : U32) (used : List U32) :
    Prop where
  marked : BitsTaken w v used
  length : used.length = neededBlocks q
  direct : q ≤ 12 → indirect = 0#32
  link : 12 < q → indirect ∈ used

namespace FileBlocks

/-- One more block is linked; superblock and group descriptor are left alone. -/
theorem linkBlock (blocks : FileBlocks w v q indirect used) (ground : Ground w)
    (ran : (linkBlock env q indirect i).run v = some ((x, indirect', i'), v')) :
    ∃ used', FileBlocks w v' (q + 1) indirect' used' ∧ x ∈ used' ∧
      v'.view 1#32 = v.view 1#32 ∧ v'.view 2#32 = v.view 2#32 := by
  have length := blocks.length
  simp only [Crunchy.linkBlock, Access.run_bind] at ran
  obtain ⟨⟨blockNum, v₁⟩, allocated, ran⟩ := bind_eq_some_iff.mp ran
  obtain ⟨marked, view⟩ := blocks.marked.alloc ground allocated
  have super := view 1#32 ground.notSuper.symm
  have group := view 2#32 ground.notGroup.symm
  split at ran
  · rename_i few
    cases ran
    refine ⟨_, ⟨marked, ?_, fun _ => blocks.direct (by omega), fun many => by omega⟩,
      mem_cons_self, super, group⟩
    rw [length_cons, length, neededBlocks, neededBlocks, if_neg (by omega), if_neg (by omega)]
  · split at ran
    · rename_i _ first
      simp only [Access.run_bind] at ran
      obtain ⟨⟨dataBlock, v₂⟩, allocatedData, ran⟩ := bind_eq_some_iff.mp ran
      obtain ⟨markedBoth, viewData⟩ := marked.alloc ground allocatedData
      obtain ⟨⟨_, v₃⟩, linked, ran⟩ := bind_eq_some_iff.mp ran
      have isUsed : blockNum ∈ dataBlock :: blockNum :: used :=
        mem_cons_of_mem _ mem_cons_self
      obtain ⟨keepsSuper, keepsGroup⟩ := markedBoth.put_view ground isUsed
        (put32 (v₂.view blockNum) (0 * 4) dataBlock)
      cases ran
      rw [ext2WriteIndirect_eq_some linked]
      refine ⟨_, ⟨markedBoth.put ground isUsed _, ?_, fun few => by omega, fun _ => isUsed⟩,
        mem_cons_self, ?_, ?_⟩
      · rw [length_cons, length_cons, length, first]
        rfl
      · rw [keepsSuper, viewData _ ground.notSuper.symm, super]
      · rw [keepsGroup, viewData _ ground.notGroup.symm, group]
    · have many : 12 < q := by omega
      have isUsed := mem_cons_of_mem blockNum (blocks.link many)
      have more : (blockNum :: used).length = neededBlocks (q + 1) := by
        rw [length_cons, length, neededBlocks, neededBlocks, if_pos many, if_pos (by omega)]
      split at ran
      · simp only [Access.run_bind] at ran
        obtain ⟨⟨_, v₂⟩, linked, ran⟩ := bind_eq_some_iff.mp ran
        obtain ⟨keepsSuper, keepsGroup⟩ := marked.put_view ground isUsed
          (put32 (v₁.view indirect) ((q - 12) * 4) blockNum)
        cases ran
        rw [ext2WriteIndirect_eq_some linked]
        exact ⟨_, ⟨marked.put ground isUsed _, more, fun few => by omega, fun _ => isUsed⟩,
          mem_cons_self, keepsSuper.trans super, keepsGroup.trans group⟩
      · cases ran
        exact ⟨_, ⟨marked, more, fun few => by omega, fun _ => isUsed⟩, mem_cons_self,
          super, group⟩

end FileBlocks

/-- One block less in both counters. -/
theorem countBlock_run (v : Buffered U32 Bytes) :
    countBlock.run v = some ((),
      (v.store 1#32 (put32 (v.view 1#32) 12 (get32 (v.view 1#32) 12 - 1#32))).store 2#32
        (put16 (v.view 2#32) 12 (get16 (v.view 2#32) 12 - 1#16))) := by
  have other : (2#32 : U32) ≠ 1#32 := by decide
  rfl

/-- After `q` rounds of the loop: the blocks it has taken, and the counters, which go
down by one a round. -/
structure Tallied (w v : Buffered U32 Bytes) (q : Nat) (indirect : U32) (used : List U32) :
    Prop where
  blocks : FileBlocks w v q indirect used
  super : get32 (v.view 1#32) 12 = get32 (w.view 1#32) 12 - BitVec.ofNat 32 q
  group : get16 (v.view 2#32) 12 = get16 (w.view 2#32) 12 - BitVec.ofNat 16 q

namespace Tallied

theorem start (w : Buffered U32 Bytes)
    (written : w.disk (blockBitmapOf w) = w.view (blockBitmapOf w)) : Tallied w w 0 0#32 [] where
  blocks := ⟨⟨Taken.refl w, Nat.add_zero _, written⟩, rfl, fun _ => rfl, fun many => by omega⟩
  super := by simp
  group := by simp

theorem touchBlock {sz : Nat} (tallied : Tallied w v q indirect used) (ground : Ground w)
    (ran : (touchBlock env data q sz indirect i).run v = some ((indirect', i'), v')) :
    ∃ used', Tallied w v' (q + 1) indirect' used' := by
  simp only [Crunchy.touchBlock, Access.run_bind] at ran
  obtain ⟨⟨⟨x, indirect₁, i₁⟩, v₁⟩, linked, ran⟩ := bind_eq_some_iff.mp ran
  obtain ⟨used', blocks, isUsed, super, group⟩ := tallied.blocks.linkBlock ground linked
  rw [writeData_run, bind_some] at ran
  generalize patch (patch (v₁.view x) 0 1024 fun _ => 0#8) 0 _ _ = bytes at ran
  have marked := blocks.marked.put ground isUsed bytes
  obtain ⟨keepsSuper, keepsGroup⟩ := blocks.marked.put_view ground isUsed bytes
  obtain ⟨v₂, counted, taken, view⟩ := marked.taken.count ground
  rw [countBlock_run] at counted
  rw [countBlock_run] at ran
  cases counted
  cases ran
  have other : (1#32 : U32) ≠ 2#32 := by decide
  have bitmap := view _ ground.notSuper ground.notGroup
  refine ⟨used', ⟨⟨taken, ?_, ?_⟩, blocks.length, blocks.direct, blocks.link⟩, ?_, ?_⟩
  · rw [bitmap]
    exact marked.card
  · rw [bitmap]
    exact marked.written
  · rw [Buffered.store_view_other other, Buffered.store_view_self, get32_put32, keepsSuper, super,
      tallied.super, BitVec.sub_sub, ← BitVec.ofNat_add]
  · rw [Buffered.store_view_self, get16_put16, keepsGroup, group, tallied.group, BitVec.sub_sub,
      ← BitVec.ofNat_add]

/-- The whole loop, one round a block. -/
theorem touchLoop {fuel sz : Nat} (tallied : Tallied w v q indirect used) (ground : Ground w)
    (ran : (touchLoop env data fuel q sz indirect i).run v = some ((indirect', i'), v')) :
    ∃ used', Tallied w v' (q + blockCount sz) indirect' used' := by
  induction fuel generalizing q sz indirect i v used with
  | zero =>
    rw [Crunchy.touchLoop] at ran
    split at ran
    · rename_i ended
      cases ran
      exact ⟨used, by rw [ended]; exact tallied⟩
    · cases ran
  | succ fuel ih =>
    rw [Crunchy.touchLoop] at ran
    split at ran
    · rename_i ended
      cases ran
      exact ⟨used, by rw [ended]; exact tallied⟩
    · rename_i more
      simp only [Access.run_bind] at ran
      obtain ⟨⟨⟨indirect₁, i₁⟩, v₁⟩, round, ran⟩ := bind_eq_some_iff.mp ran
      obtain ⟨used₁, tallied₁⟩ := tallied.touchBlock ground round
      obtain ⟨used', done⟩ := ih tallied₁ ran
      rw [blockCount_chunk more, Nat.add_comm (blockCount _) 1, ← Nat.add_assoc]
      exact ⟨used', done⟩

end Tallied

/-! ### The call up to its directory section -/

/-- The report only reads. -/
theorem touchReport_reads {count : Nat}
    (ran : (touchReport indirect count q).run v = some ((), v')) : v' = v := by
  induction count generalizing q with
  | zero =>
    cases ran
    rfl
  | succ count ih =>
    rw [touchReport] at ran
    split at ran
    · simp only [Access.run_bind, ext2ReadIndirect, run_bufferRead, bind_some] at ran
      split at ran
      · exact ih ran
      · cases ran
    · exact ih ran

/-- The terminator goes somewhere in the indirect block. -/
theorem touchTerminate_put (ran : (touchTerminate indirect i).run v = some (i', v')) :
    ∃ bytes, v' = v.put indirect bytes := by
  simp only [touchTerminate, Access.run_bind] at ran
  obtain ⟨⟨_, v₁⟩, wrote, ran⟩ := bind_eq_some_iff.mp ran
  obtain ⟨⟨_, v₂⟩, reported, ran⟩ := bind_eq_some_iff.mp ran
  cases ran
  exact ⟨_, (touchReport_reads reported).trans (ext2WriteIndirect_eq_some wrote)⟩

/-- The volume `u` that the directory section of a call on `v` starts from: inode
`index + 1` and the blocks of the file are taken, in the cache and on the disk, and
the counters of free blocks have gone down by one for each data block. -/
structure Prepared (v u : Buffered U32 Bytes) (n index : Nat) : Prop where
  inGroup : index < inodeCountOf v
  free : index ∈ freeBits (v.view (inodeBitmapOf v))
  inodesView : u.view (inodeBitmapOf v) = setBit (v.view (inodeBitmapOf v)) index
  inodesDisk : u.disk (inodeBitmapOf v) = setBit (v.view (inodeBitmapOf v)) index
  blocksCard : (freeBits (u.view (blockBitmapOf v))).card + neededBlocks (blockCount n) =
    (freeBits (v.view (blockBitmapOf v))).card
  blocksDisk : u.disk (blockBitmapOf v) = u.view (blockBitmapOf v)
  super : get32 (u.view 1#32) 12 = get32 (v.view 1#32) 12 - BitVec.ofNat 32 (blockCount n)
  group : get16 (u.view 2#32) 12 = get16 (v.view 2#32) 12 - BitVec.ofNat 16 (blockCount n)
  superOther : ∀ j, j < 12 ∨ 16 ≤ j → u.view 1#32 j = v.view 1#32 j
  groupOther : ∀ j, j < 12 ∨ 14 ≤ j → u.view 2#32 j = v.view 2#32 j
  root : get32 (u.view (inodeTableOf v)) 168 = rootBlockOf v

namespace Prepared

theorem layout (prepared : Prepared v u n index) (image : Ext2Image v) : SameLayout v u where
  magic := (get16_congr fun j start _ => prepared.superOther j (by omega)).trans image.magic
  count := get32_congr fun j start _ => prepared.superOther j (by omega)
  table := get32_congr fun j _ stop => prepared.groupOther j (by omega)

theorem blockBitmap (prepared : Prepared v u n index) : get32 (u.view 2#32) 0 = blockBitmapOf v :=
  get32_congr fun j _ stop => prepared.groupOther j (by omega)

theorem inodeBitmap (prepared : Prepared v u n index) : get32 (u.view 2#32) 4 = inodeBitmapOf v :=
  get32_congr fun j _ stop => prepared.groupOther j (by omega)

end Prepared

/-- The indirect block of a file is none of the volume's own blocks. -/
theorem FileBlocks.indirect_apart {base : Buffered U32 Bytes}
    (blocks : FileBlocks w v q indirect used) (image : Ext2Image base) (based : Based base w)
    (reserved : x ∈ reservedBlocks base) (notBoot : x ≠ 0#32) : x ≠ indirect := by
  by_cases few : q ≤ 12
  · rw [blocks.direct few]
    exact notBoot
  · rintro rfl
    exact not_taken image based blocks.marked.taken reserved (blocks.link (Nat.not_le.mp few))

/-- The first free inode, if there is one, is an inode of the group, and no bit behind
them. -/
def InodesInGroup (v : Buffered U32 Bytes) : Prop :=
  ∀ k ∈ freeBits (v.view (inodeBitmapOf v)),
    (∀ j ∈ freeBits (v.view (inodeBitmapOf v)), k ≤ j) → k < inodeCountOf v

theorem HasSpace.inodesInGroup (space : HasSpace v n) : InodesInGroup v := by
  obtain ⟨j, free, below⟩ := space.inode
  exact fun k _ first => Nat.lt_of_le_of_lt (first j free) below

/-- The volume after the inode's bit is set. -/
def inodeTaken (v : Buffered U32 Bytes) (index : Nat) : Buffered U32 Bytes :=
  v.put (inodeBitmapOf v) (setBit (v.view (inodeBitmapOf v)) index)

theorem based_inodeTaken (v : Buffered U32 Bytes) (index : Nat) : Based v (inodeTaken v index) :=
  Based.put ⟨fun _ _ _ => rfl, fun _ _ _ => rfl⟩ _ (Or.inr rfl)

/-- After the loop the terminator goes to the indirect block, and the inode to its
slot. -/
theorem Tallied.prepared (tallied : Tallied (inodeTaken v index) u (blockCount n) indirect used)
    (image : Ext2Image v) (inGroup : index < inodeCountOf v) (notRoot : index ≠ 1)
    (free : index ∈ freeBits (v.view (inodeBitmapOf v))) (bytes : Bytes) :
    Prepared v ((u.put indirect bytes).put (slotBlock (inodeTableOf v) index)
      (patch ((u.put indirect bytes).view (slotBlock (inodeTableOf v) index)) (slotOffset index)
        128 i)) n index := by
  have based := based_inodeTaken v index
  have sameBitmap := based.blockBitmap image
  have taken := tallied.blocks.marked.taken
  obtain ⟨bitmapBoot, _, _⟩ := image.blockBitmap_apart
  obtain ⟨inodesBoot, inodesSuper, inodesGroup, inodesBitmap⟩ := image.inodeBitmap_apart
  obtain ⟨slotBoot, slotSuper, slotGroup, slotBitmap, slotInodes, _⟩ := image.slot_apart inGroup
  have notUsed : inodeBitmapOf v ∉ used := not_taken image based taken (by simp [reservedBlocks])
  have notBitmap : inodeBitmapOf v ≠ blockBitmapOf (inodeTaken v index) := by
    rw [sameBitmap]
    exact inodesBitmap
  have tableApart : inodeTableOf v ≠ indirect := by
    have table : slotBlock (inodeTableOf v) 1 = inodeTableOf v := by simp [slotBlock]
    rw [← table]
    exact tallied.blocks.indirect_apart image based
      (by simp [reservedBlocks, Ext2Image.slot_mem image.rootInode])
      (image.slot_apart image.rootInode).1
  have tableView : (u.put indirect bytes).view (inodeTableOf v) = v.view (inodeTableOf v) := by
    rw [Buffered.put_view_other tableApart]
    exact table_kept image based taken
  have root := root_kept (i := i) image inGroup notRoot tableView
  -- of the volume's own blocks only the inode's slot is written behind the loop
  generalize patch _ _ _ i = record at root ⊢
  have kept : ∀ {y}, y ∈ reservedBlocks v → y ≠ 0#32 → slotBlock (inodeTableOf v) index ≠ y →
      ((u.put indirect bytes).put (slotBlock (inodeTableOf v) index) record).view y = u.view y ∧
      ((u.put indirect bytes).put (slotBlock (inodeTableOf v) index) record).disk y = u.disk y := by
    intro y reserved notBoot notSlot
    have apart := tallied.blocks.indirect_apart image based reserved notBoot
    rw [Buffered.put_view_other notSlot.symm, Buffered.put_view_other apart,
      Buffered.put_disk_other notSlot.symm, Buffered.put_disk_other apart]
    exact ⟨rfl, rfl⟩
  obtain ⟨superView, _⟩ := kept (y := 1#32) (by simp [reservedBlocks]) (by decide) slotSuper
  obtain ⟨groupView, _⟩ := kept (y := 2#32) (by simp [reservedBlocks]) (by decide) slotGroup
  obtain ⟨bitmapView, bitmapDisk⟩ := kept (by simp [reservedBlocks]) bitmapBoot slotBitmap
  obtain ⟨inodesView, inodesDisk⟩ := kept (by simp [reservedBlocks]) inodesBoot slotInodes
  refine ⟨inGroup, free, ?_, ?_, ?_, ?_, ?_, ?_, ?_, ?_, root⟩
  · rw [inodesView, taken.view _ notUsed notBitmap inodesSuper inodesGroup, inodeTaken,
      Buffered.put_view_self]
  · rw [inodesDisk, taken.disk _ notUsed notBitmap, inodeTaken, Buffered.put_disk_self]
  · have card := tallied.blocks.marked.card
    rw [tallied.blocks.length, based.freeBits image, sameBitmap] at card
    rw [bitmapView]
    exact card
  · have written := tallied.blocks.marked.written
    rw [sameBitmap] at written
    rw [bitmapView, bitmapDisk]
    exact written
  · rw [superView, tallied.super, based.super image]
  · rw [groupView, tallied.group, based.group image]
  · intro j outside
    rw [superView, taken.super j outside, based.super image]
  · intro j outside
    rw [groupView, taken.group j outside, based.group image]

/-- A call that returns has prepared the volume. -/
theorem ext2Touch_prepared {ino : U32} (image : Ext2Image v) (inodes : InodesInGroup v)
    (ran : (ext2Touch env name data n).run v = some (ino, v')) :
    ∃ index u, Prepared v u n index ∧
      (touchEnter env name (BitVec.ofNat 32 (index + 1))).run u = some (ino, v') := by
  simp only [ext2Touch, Access.run_bind, run_ext2Superblock, bind_some, image.magic,
    BEq.rfl, if_true, ext2AllocInode, run_ext2Blockdesc, GroupDesc.inodeBitmap] at ran
  obtain ⟨⟨inodeNum, w⟩, allocated, ran⟩ := bind_eq_some_iff.mp ran
  obtain ⟨index, free, first, rfl, isNext⟩ := ext2AllocBit_eq_some allocated
  obtain rfl : w = inodeTaken v index := isNext
  obtain ⟨⟨⟨indirect, i₁⟩, v₁⟩, looped, ran⟩ := bind_eq_some_iff.mp ran
  obtain ⟨⟨i₂, v₂⟩, terminated, ran⟩ := bind_eq_some_iff.mp ran
  obtain ⟨⟨_, u⟩, wrote, ran⟩ := bind_eq_some_iff.mp ran
  have inGroup : index < inodeCountOf v := inodes index free first
  have notRoot : index ≠ 1 := by
    rintro rfl
    have clear := (mem_freeBits.mp free).2
    rw [← inodeBitmapOf, image.rootInUse] at clear
    cases clear
  have based := based_inodeTaken v index
  have coherent : (inodeTaken v index).disk (blockBitmapOf (inodeTaken v index)) =
      (inodeTaken v index).view (blockBitmapOf (inodeTaken v index)) := by
    obtain ⟨bitmapBoot, _, _⟩ := image.blockBitmap_apart
    obtain ⟨_, _, _, inodesBitmap⟩ := image.inodeBitmap_apart
    rw [based.blockBitmap image, based.disk _ bitmapBoot inodesBitmap.symm,
      based.view _ bitmapBoot inodesBitmap.symm, image.coherent]
  obtain ⟨used, tallied⟩ := (Tallied.start _ coherent).touchLoop (based.ground image) looped
  rw [Nat.zero_add] at tallied
  obtain ⟨bytes, rfl⟩ := touchTerminate_put terminated
  have superApart := tallied.blocks.indirect_apart image based
    (show 1#32 ∈ reservedBlocks v by simp [reservedBlocks]) (by decide)
  have groupApart := tallied.blocks.indirect_apart image based
    (show 2#32 ∈ reservedBlocks v by simp [reservedBlocks]) (by decide)
  have layout := (SameLayout.of_taken image based tallied.blocks.marked.taken).put superApart.symm
    groupApart.symm bytes
  rw [layout.touchWriteInode_run image inGroup] at wrote
  cases wrote
  exact ⟨index, _, tallied.prepared image inGroup notRoot free bytes, ran⟩

/-- The directory section refuses and leaves everything, or it has written the
directory block and counted the inode. -/
theorem SameLayout.touchEnter_cases {ino : U32} (same : SameLayout v u) (image : Ext2Image v)
    (inGroup : index < inodeCountOf v)
    (root : get32 (u.view (inodeTableOf v)) 168 = rootBlockOf v)
    (ran : (touchEnter env name (BitVec.ofNat 32 (index + 1))).run u = some (ino, v')) :
    ino = 0#32 ∧ v' = u ∨
      ino = BitVec.ofNat 32 (index + 1) ∧
        ∃ u' : Buffered U32 Bytes,
          (∀ y, y ≠ rootBlockOf v → u'.view y = u.view y ∧ u'.disk y = u.disk y) ∧
          v' = (u'.put 1#32 (superCounted env (u.view 1#32))).put 2#32
            (groupCounted (u.view 2#32)) := by
  rw [same.touchEnter_eq env _ image root] at ran
  obtain ⟨⟨entered, u'⟩, directory, ran⟩ := bind_eq_some_iff.mp ran
  rcases touchDirectory_frame directory with ⟨refused, unchanged⟩ | ⟨rfl, frame⟩
  · subst refused
    cases ran
    exact Or.inl ⟨rfl, unchanged⟩
  · obtain ⟨_, notSuper, notGroup, _, _⟩ := image.root_apart
    have sameSuper := (frame 1#32 notSuper.symm).1
    have sameGroup := (frame 2#32 notGroup.symm).1
    have magic : get16 (u'.view 1#32) 56 = ext2Magic := by
      rw [sameSuper]
      exact same.magic
    have counted := countInode_run env magic
    rw [sameSuper, sameGroup] at counted
    have slot : (inodeSlot (get32 (u'.view 1#32) 40)
        (BitVec.ofNat 32 (index + 1))).1.toNat = 0 := by
      rw [sameSuper, same.count, inodeSlot_eq inGroup image.inodes]
      rfl
    simp only [if_true, slot, counted, bind_some] at ran
    cases ran
    exact Or.inr ⟨rfl, u', frame, rfl⟩

/-! ### The books -/

/-- The counters of superblock and group descriptor are the numbers of zero bits of
the bitmaps. -/
structure Balanced (read : U32 → Bytes) : Prop where
  superBlocks : (get32 (read 1#32) 12).toNat = (freeBits (read (get32 (read 2#32) 0))).card
  groupBlocks : (get16 (read 2#32) 12).toNat = (freeBits (read (get32 (read 2#32) 0))).card
  superInodes : (get32 (read 1#32) 16).toNat = (freeBits (read (get32 (read 2#32) 4))).card
  groupInodes : (get16 (read 2#32) 14).toNat = (freeBits (read (get32 (read 2#32) 4))).card

theorem card_freeBits_le (bitmap : Bytes) : (freeBits bitmap).card ≤ 8192 := by
  have filtered := Finset.card_filter_le (Finset.range bitCount) fun k => bitSet bitmap k = false
  rw [Finset.card_range] at filtered
  exact filtered

theorem le_neededBlocks (q : Nat) : q ≤ neededBlocks q := by
  unfold neededBlocks
  split <;> omega

theorem neededBlocks_eq_iff : neededBlocks q = q ↔ q ≤ 12 := by
  unfold neededBlocks
  split <;> omega

/-- The counters after a call that returns an inode: they agree with the bitmaps
unless the indirect block took a bit that was not counted. -/
theorem Prepared.balanced_iff (prepared : Prepared v u n index) (balanced : Balanced v.view)
    {read : U32 → Bytes} (super : read 1#32 = superCounted env (u.view 1#32))
    (group : read 2#32 = groupCounted (u.view 2#32))
    (blocks : read (blockBitmapOf v) = u.view (blockBitmapOf v))
    (inodes : read (inodeBitmapOf v) = u.view (inodeBitmapOf v)) :
    Balanced read ↔ blockCount n ≤ 12 := by
  have bitmap : get32 (read 2#32) 0 = blockBitmapOf v := by
    rw [group, get32_congr fun j _ stop => groupCounted_other _ (by omega)]
    exact prepared.blockBitmap
  have inodeBitmap : get32 (read 2#32) 4 = inodeBitmapOf v := by
    rw [group, get32_congr fun j _ stop => groupCounted_other _ (by omega)]
    exact prepared.inodeBitmap
  have superBlocks : get32 (read 1#32) 12 =
      get32 (v.view 1#32) 12 - BitVec.ofNat 32 (blockCount n) := by
    rw [super, get32_congr fun j _ stop => superCounted_other env _ (by omega)]
    exact prepared.super
  have groupBlocks : get16 (read 2#32) 12 =
      get16 (v.view 2#32) 12 - BitVec.ofNat 16 (blockCount n) := by
    rw [group, get16_congr fun j _ stop => groupCounted_other _ (by omega)]
    exact prepared.group
  have superInodes : get32 (read 1#32) 16 = get32 (v.view 1#32) 16 - 1#32 := by
    rw [super, superCounted, get32_put32_apart (by omega), get32_put32,
      get32_congr fun j start _ => prepared.superOther j (by omega)]
  have groupInodes : get16 (read 2#32) 14 = get16 (v.view 2#32) 14 - 1#16 := by
    rw [group, groupCounted, get16_put16,
      get16_congr fun j start _ => prepared.groupOther j (by omega)]
  have counted := prepared.blocksCard
  have countedInode := card_freeBits_setBit prepared.free
  have enough := le_neededBlocks (blockCount n)
  rw [← neededBlocks_eq_iff]
  constructor
  · intro after
    have balance := after.superBlocks
    have before : (get32 (v.view 1#32) 12).toNat = (freeBits (v.view (blockBitmapOf v))).card :=
      balanced.superBlocks
    rw [bitmap, blocks, superBlocks, BitVec.toNat_sub, BitVec.toNat_ofNat] at balance
    omega
  · intro direct
    obtain ⟨one, two, three, four⟩ := balanced
    rw [← blockBitmapOf] at one two
    rw [← inodeBitmapOf] at three four
    constructor
    · rw [bitmap, blocks, superBlocks, BitVec.toNat_sub, BitVec.toNat_ofNat]
      omega
    · rw [bitmap, blocks, groupBlocks, BitVec.toNat_sub, BitVec.toNat_ofNat]
      omega
    · rw [inodeBitmap, inodes, prepared.inodesView, superInodes, BitVec.toNat_sub,
        BitVec.toNat_ofNat]
      omega
    · rw [inodeBitmap, inodes, prepared.inodesView, groupInodes, BitVec.toNat_sub,
        BitVec.toNat_ofNat]
      omega

/-- What a call that returns an inode makes of balanced books, in the cache and on the
disk. -/
theorem ext2Touch_balanced {ino : U32} (image : Ext2Image v) (inodes : InodesInGroup v)
    (balanced : Balanced v.view) (ran : (ext2Touch env name data n).run v = some (ino, v'))
    (success : ino ≠ 0#32) :
    (Balanced v'.view ↔ n ≤ 12 * 1024) ∧ (Balanced v'.disk ↔ n ≤ 12 * 1024) := by
  obtain ⟨index, u, prepared, entered⟩ := ext2Touch_prepared image inodes ran
  rw [← blockCount_le_iff]
  rcases (prepared.layout image).touchEnter_cases image prepared.inGroup prepared.root entered with
    ⟨refused, _⟩ | ⟨_, u', frame, rfl⟩
  · exact absurd refused success
  · obtain ⟨_, bitmapSuper, bitmapGroup⟩ := image.blockBitmap_apart
    obtain ⟨_, inodesSuper, inodesGroup, _⟩ := image.inodeBitmap_apart
    obtain ⟨_, _, _, rootBitmap, rootInodes⟩ := image.root_apart
    obtain ⟨bitmapView, bitmapDisk⟩ := frame _ rootBitmap.symm
    obtain ⟨inodesView, inodesDisk⟩ := frame _ rootInodes.symm
    have other : (1#32 : U32) ≠ 2#32 := by decide
    constructor
    · apply prepared.balanced_iff balanced
      · rw [Buffered.put_view_other other, Buffered.put_view_self]
      · rw [Buffered.put_view_self]
      · rw [Buffered.put_view_other bitmapGroup, Buffered.put_view_other bitmapSuper, bitmapView]
      · rw [Buffered.put_view_other inodesGroup, Buffered.put_view_other inodesSuper, inodesView]
    · apply prepared.balanced_iff balanced
      · rw [Buffered.put_disk_other other, Buffered.put_disk_self]
      · rw [Buffered.put_disk_self]
      · rw [Buffered.put_disk_other bitmapGroup, Buffered.put_disk_other bitmapSuper, bitmapDisk,
          prepared.blocksDisk]
      · rw [Buffered.put_disk_other inodesGroup, Buffered.put_disk_other inodesSuper, inodesDisk,
          prepared.inodesDisk, prepared.inodesView]

/-- Books that balance do so after a call exactly when the file needs no indirect
block. -/
theorem touch_balanced_iff (env : Ext2Env) (v v' : Buffered U32 Bytes) (name : List (BitVec 8))
    (data : Bytes) (n : Nat) (ino : U32) (image : Ext2Image v)
    (inodes : InodesInGroup v) (balanced : Balanced v.disk)
    (ran : (ext2Touch env name data n).run v = some (ino, v')) (success : ino ≠ 0#32) :
    Balanced v'.view ∧ Balanced v'.disk ↔ n ≤ 12 * 1024 := by
  rw [← image.coherent] at balanced
  obtain ⟨view, disk⟩ := ext2Touch_balanced image inodes balanced ran success
  rw [view, disk, and_self]

/-! ### A volume whose books balance -/

/-- The volume with its counters set right. -/
def settled (v : Buffered U32 Bytes) : Buffered U32 Bytes :=
  let blocks := (freeBits (v.view (blockBitmapOf v))).card
  let inodes := (freeBits (v.view (inodeBitmapOf v))).card
  (v.put 1#32 (put32 (put32 (v.view 1#32) 12 (BitVec.ofNat 32 blocks)) 16
    (BitVec.ofNat 32 inodes))).put 2#32
      (put16 (put16 (v.view 2#32) 12 (BitVec.ofNat 16 blocks)) 14 (BitVec.ofNat 16 inodes))

theorem settled_other {x : U32} (notSuper : x ≠ 1#32) (notGroup : x ≠ 2#32) :
    (settled v).view x = v.view x := by
  rw [settled, Buffered.put_view_other notGroup, Buffered.put_view_other notSuper]

theorem Ext2Image.settled_shape (image : Ext2Image v) : SameShape v (settled v) := by
  obtain ⟨_, bitmapSuper, bitmapGroup⟩ := image.blockBitmap_apart
  obtain ⟨_, inodesSuper, inodesGroup, _⟩ := image.inodeBitmap_apart
  obtain ⟨tableSuper, tableGroup, _⟩ := image.table_apart
  have other : (1#32 : U32) ≠ 2#32 := by decide
  constructor
  · intro j later
    rw [settled, Buffered.put_view_other other, Buffered.put_view_self, put32,
      patch_outside (by omega), put32, patch_outside (by omega)]
  · intro j before
    rw [settled, Buffered.put_view_self, put16, patch_outside (by omega), put16,
      patch_outside (by omega)]
  · exact settled_other bitmapSuper bitmapGroup
  · exact settled_other inodesSuper inodesGroup
  · exact settled_other tableSuper tableGroup

theorem Ext2Image.settled_balanced (image : Ext2Image v) : Balanced (settled v).view := by
  have same := image.settled_shape
  have other : (1#32 : U32) ≠ 2#32 := by decide
  have fewBlocks := card_freeBits_le (v.view (blockBitmapOf v))
  have fewInodes := card_freeBits_le (v.view (inodeBitmapOf v))
  constructor
  · rw [← blockBitmapOf, same.blockBitmap, same.blocks, settled, Buffered.put_view_other other,
      Buffered.put_view_self, get32_put32_apart (by omega), get32_put32, BitVec.toNat_ofNat]
    omega
  · rw [← blockBitmapOf, same.blockBitmap, same.blocks, settled, Buffered.put_view_self, put16,
      get16_patch_apart (by omega), get16_put16, BitVec.toNat_ofNat]
    omega
  · rw [← inodeBitmapOf, same.inodeBitmap, same.inodes, settled, Buffered.put_view_other other,
      Buffered.put_view_self, get32_put32, BitVec.toNat_ofNat]
    omega
  · rw [← inodeBitmapOf, same.inodeBitmap, same.inodes, settled, Buffered.put_view_self,
      get16_put16, BitVec.toNat_ofNat]
    omega

theorem Ext2Image.settled_image (image : Ext2Image v) : Ext2Image (settled v) := by
  refine image.settled_shape.image image ?_
  funext x
  by_cases isGroup : x = 2#32
  · rw [isGroup, settled, Buffered.put_view_self, Buffered.put_disk_self]
  · rw [settled, Buffered.put_view_other isGroup, Buffered.put_disk_other isGroup]
    by_cases isSuper : x = 1#32
    · rw [isSuper, Buffered.put_view_self, Buffered.put_disk_self]
    · rw [Buffered.put_view_other isSuper, Buffered.put_disk_other isSuper, image.coherent]

private theorem settled_space (few : n ≤ (12 + 256) * 1024) :
    HasSpace (settled smallVolume) n := by
  have room : HasRoom smallVolume [0x61#8] n := smallVolume_room (by decide) few
  exact smallVolume_image.settled_shape.space room.space

/-- A file on the small volume, its counters set right. -/
private theorem settled_touch (data : Bytes) (few : blockCount n ≤ 255) :
    ∃ ino v', (ext2Touch clearEnv [0x61#8] data n).run (settled smallVolume) = some (ino, v') ∧
      ino ≠ 0#32 := by
  have image := smallVolume_image
  have fits : n ≤ (12 + 256) * 1024 := Nat.le_trans (blockCount_le_iff.mp few) (by decide)
  have space := settled_space fits
  have room : HasRoom (settled smallVolume) [0x61#8] n := by
    obtain ⟨_, rootSuper, rootGroup, _, _⟩ := image.root_apart
    refine ⟨space.blocks, space.inode, ?_⟩
    exact (smallVolume_room (by decide) fits).entry
  obtain ⟨index, v', used, ran, created⟩ :=
    ext2Touch_run data image.settled_image room clearEnv_zero few
  exact ⟨_, v', ran, image.settled_image.inodeNumber_ne_zero created.inGroup⟩

/-- A file of one byte on a volume with balanced books. -/
theorem one_byte_balanced : ∃ ino v',
    (ext2Touch clearEnv [0x61#8] (fun _ => 7#8) 1).run (settled smallVolume) = some (ino, v') ∧
      Balanced v'.view ∧ Balanced v'.disk := by
  have image := smallVolume_image.settled_image
  have balanced := smallVolume_image.settled_balanced
  obtain ⟨ino, v', ran, success⟩ := settled_touch (n := 1) (fun _ => 7#8) (by decide)
  exact ⟨ino, v', ran, (touch_balanced_iff clearEnv _ v' [0x61#8] (fun _ => 7#8) 1 ino image
    (settled_space (n := 1) (by decide)).inodesInGroup balanced ran success).mpr (by decide)⟩

/-- A file of thirteen blocks takes fourteen and counts thirteen. -/
theorem indirect_block_not_counted :
    ¬ ∀ (env : Ext2Env) (v v' : Buffered U32 Bytes) (name : List (BitVec 8)) (data : Bytes)
      (n : Nat) (ino : U32), Ext2Image v → HasSpace v n → Balanced v.disk →
      1 ≤ n → n ≤ (12 + 256) * 1024 → (ext2Touch env name data n).run v = some (ino, v') →
      ino ≠ 0#32 → Balanced v'.disk := by
  intro always
  have image := smallVolume_image.settled_image
  have balanced := smallVolume_image.settled_balanced
  obtain ⟨ino, v', ran, success⟩ := settled_touch (n := 13 * 1024) (fun _ => 7#8) (by decide)
  have space : HasSpace (settled smallVolume) (13 * 1024) := settled_space (by decide)
  have after := always clearEnv _ v' [0x61#8] (fun _ => 7#8) (13 * 1024) ino image space
    (image.coherent ▸ balanced) (by decide) (by decide) ran success
  have few := (ext2Touch_balanced image space.inodesInGroup balanced ran success).2.mp after
  exact absurd few (by decide)

end Crunchy
