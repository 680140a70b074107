/-
Module: Crunchy.Proofs.Ext2Refusal
Purpose: What a call of `ext2_touch` leaves on the volume when the root directory has
  no room for the new entry, which it finds out last.
Trusted boundary: none
Main exports: VolumeAsBefore, refused_touch_leaves_traces
-/
import Crunchy.Proofs.Ext2Counts

namespace Crunchy

open Lib

variable {v v' : Buffered U32 Bytes} {env : Ext2Env} {data : Bytes} {n : Nat}
  {name : List (BitVec 8)}

/-- The blocks of a volume that are no file's are the same, in the cache and on the
disk: superblock, group descriptor, bitmaps, root directory and inode table. -/
def VolumeAsBefore (v v' : Buffered U32 Bytes) : Prop :=
  ∀ x ∈ 1#32 :: 2#32 :: blockBitmapOf v :: inodeBitmapOf v :: rootBlockOf v :: tableBlocks v,
    v'.view x = v.view x ∧ v'.disk x = v.disk x

/-- A bit that was clear is set. -/
theorem setBit_ne {bitmap : Bytes} {num : Nat} (free : num ∈ freeBits bitmap) :
    setBit bitmap num ≠ bitmap := by
  intro same
  have counted := card_freeBits_setBit free
  rw [same] at counted
  omega

/-- The inode bitmap has a bit more. -/
theorem Prepared.not_asBefore {index : Nat} (prepared : Prepared v v' n index) :
    ¬ VolumeAsBefore v v' := by
  intro untouched
  have same := (untouched (inodeBitmapOf v) (by simp)).1
  rw [prepared.inodesView] at same
  exact setBit_ne prepared.free same

/-- A refusal comes after everything else: the volume it leaves is the one the
directory section started from. -/
theorem refused_touch_prepared (image : Ext2Image v) (inodes : InodesInGroup v)
    (ran : (ext2Touch env name data n).run v = some (0#32, v')) :
    ∃ index, Prepared v v' n index := by
  obtain ⟨index, u, prepared, entered⟩ := ext2Touch_prepared image inodes ran
  rcases (prepared.layout image).touchEnter_cases image prepared.inGroup prepared.root entered with
    ⟨_, rfl⟩ | ⟨isZero, _⟩
  · exact ⟨index, prepared⟩
  · exact absurd isZero.symm (image.inodeNumber_ne_zero prepared.inGroup)

/-- No refused call is undone: on every volume an inode and the blocks of the file stay
taken, in the cache and on the disk. -/
theorem refused_touch_leaves_traces (env : Ext2Env) (v v' : Buffered U32 Bytes)
    (name : List (BitVec 8)) (data : Bytes) (n : Nat) (image : Ext2Image v)
    (inodes : InodesInGroup v) (ran : (ext2Touch env name data n).run v = some (0#32, v')) :
    ¬ VolumeAsBefore v v' ∧
      (∃ index ∈ freeBits (v.disk (inodeBitmapOf v)),
        v'.view (inodeBitmapOf v) = setBit (v.disk (inodeBitmapOf v)) index ∧
        v'.disk (inodeBitmapOf v) = setBit (v.disk (inodeBitmapOf v)) index) ∧
      (freeBits (v'.disk (blockBitmapOf v))).card + neededBlocks (blockCount n) =
        (freeBits (v.disk (blockBitmapOf v))).card := by
  obtain ⟨index, prepared⟩ := refused_touch_prepared image inodes ran
  rw [← image.coherent]
  refine ⟨prepared.not_asBefore,
    ⟨index, prepared.free, prepared.inodesView, prepared.inodesDisk⟩, ?_⟩
  rw [prepared.blocksDisk]
  exact prepared.blocksCard

/-! ### A directory without room -/

/-- A directory block with two entries, names of one byte each; behind the start of
the second there are 224 bytes left. -/
def crowdedDir : Bytes := fun j =>
  if j = 4 then 0x20#8 else if j = 5 then 3#8 else if j = 6 then 1#8
  else if j = 804 then 0xE0#8 else if j = 806 then 1#8 else 0#8

/-- A file of one byte is refused on the small volume with that directory. -/
private theorem crowded_refuses :
    Ext2Image (setRoot smallVolume crowdedDir) ∧ HasSpace (setRoot smallVolume crowdedDir) 1 ∧
    dirEntries ((setRoot smallVolume crowdedDir).view
      (rootBlockOf (setRoot smallVolume crowdedDir))) = some [(0#32, [0#8]), (0#32, [0#8])] ∧
    ∃ v', (ext2Touch clearEnv [0x61#8] (fun _ => 7#8) 1).run (setRoot smallVolume crowdedDir) =
      some (0#32, v') := by
  obtain ⟨image, sameRoot, space⟩ := smallVolume_image.setRoot crowdedDir
  have room : HasRoom smallVolume [0x61#8] 1 := smallVolume_room (by decide) (by decide)
  have isCrowded : (setRoot smallVolume crowdedDir).view
      (rootBlockOf (setRoot smallVolume crowdedDir)) = crowdedDir := by
    exact Buffered.put_view_self
  have lastAt : LastEntry crowdedDir 800 0 := by
    refine .next (by decide +kernel) (by decide +kernel) ?_
    have second : 0 + recLenAt crowdedDir 0 = 800 := by decide +kernel
    exact .here (by decide +kernel)
  have loose : recLenAt crowdedDir 800 ≠ calcLenAt crowdedDir 800 := by decide +kernel
  refine ⟨image, space room.space, by rw [isCrowded]; decide +kernel, ?_⟩
  obtain ⟨index, w, v', indirect, i, used, looped⟩ :=
    image.looped (fun _ => 7#8) (space room.space) clearEnv_zero (by decide)
  obtain ⟨u, ran, same, root, view, _⟩ := looped.entered image (by decide)
  rw [← isCrowded, ← view] at lastAt loose
  exact ⟨u, (ran _).trans
    (same.touchEnter_refuses image root lastAt (by decide) loose (by decide))⟩

/-- What that refusal leaves. -/
theorem crowded_directory_leaves_traces : ∃ v',
    (ext2Touch clearEnv [0x61#8] (fun _ => 7#8) 1).run (setRoot smallVolume crowdedDir) =
      some (0#32, v') ∧ ¬ VolumeAsBefore (setRoot smallVolume crowdedDir) v' := by
  obtain ⟨image, space, _, v', ran⟩ := crowded_refuses
  exact ⟨v', ran, (refused_touch_leaves_traces clearEnv _ v' _ _ 1 image space.inodesInGroup
    ran).1⟩

/-- A refused call changes a well-formed volume. -/
theorem refusal_changes_volume :
    ¬ ∀ (env : Ext2Env) (v v' : Buffered U32 Bytes) (name : List (BitVec 8)) (data : Bytes)
      (n : Nat), Ext2Image v → HasSpace v n →
      (∃ entries, dirEntries (v.view (rootBlockOf v)) = some entries) →
      (ext2Touch env name data n).run v = some (0#32, v') → VolumeAsBefore v v' := by
  intro always
  obtain ⟨image, space, wellFormed, v', ran⟩ := crowded_refuses
  obtain ⟨index, prepared⟩ := refused_touch_prepared image space.inodesInGroup ran
  exact prepared.not_asBefore (always clearEnv _ v' _ _ 1 image space ⟨_, wellFormed⟩ ran)

end Crunchy
