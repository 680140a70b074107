/-
Module: Crunchy.Proofs.Ext2Fresh
Purpose: Runs of `ext2_alloc_block` and `ext2_alloc_inode` on one volume: every call
  hands out a number that was free on the original image and that no other call of
  its kind gets, and the disk changes in the bits of these numbers alone.
Trusted boundary: none
Main exports: AllocKind, AllocRun, allocSystem, Allocated, allocations_fresh
-/
import Crunchy.Lib.Transition
import Crunchy.Proofs.Ext2Frame

namespace Crunchy

open Lib Option List Buffered Access

/-- What is allocated. -/
inductive AllocKind where
  | block
  | inode
deriving DecidableEq

namespace AllocKind

/-- The call for each kind. -/
def program (env : Ext2Env) : AllocKind → DiskProgram U32
  | .block => ext2AllocBlock env
  | .inode => ext2AllocInode env

/-- The block of the bitmap, from the group descriptor. -/
def bitmap (v : Buffered U32 Bytes) : AllocKind → U32
  | .block => get32 (v.view 2#32) GroupDesc.blockBitmap
  | .inode => get32 (v.view 2#32) GroupDesc.inodeBitmap

theorem program_run (kind : AllocKind) (env : Ext2Env) (v : Buffered U32 Bytes) :
    (kind.program env).run v = (ext2AllocBit env (kind.bitmap v)).run v := by
  cases kind <;>
    simp only [program, bitmap, ext2AllocBlock, ext2AllocInode, run_bind,
      run_ext2Blockdesc, bind_some]

theorem bitmap_congr {v v' : Buffered U32 Bytes} (same : v'.view 2#32 = v.view 2#32)
    (kind : AllocKind) : kind.bitmap v' = kind.bitmap v := by
  cases kind <;> simp only [bitmap, same]

end AllocKind

/-- Both bitmaps and the group descriptors are in three different blocks. -/
structure ThreeBlocks (image : Buffered U32 Bytes) : Prop where
  bitmaps : AllocKind.bitmap image .block ≠ AllocKind.bitmap image .inode
  descriptors : ∀ kind, AllocKind.bitmap image kind ≠ 2#32

theorem ThreeBlocks.injective {image : Buffered U32 Bytes} (apart : ThreeBlocks image)
    {one two : AllocKind} (same : one.bitmap image = two.bitmap image) : one = two := by
  cases one <;> cases two
  · rfl
  · exact absurd same apart.bitmaps
  · exact absurd same.symm apart.bitmaps
  · rfl

/-! ### Runs -/

/-- A volume and the numbers returned so far, the newest in front. -/
structure AllocRun where
  volume : Buffered U32 Bytes
  returned : List (AllocKind × U32)

/-- One call that returns; the memory behind each copy of a bitmap may be other. -/
inductive VolumeAllocStep : AllocRun → AllocKind × Ext2Env → AllocRun → Prop where
  | call {run : AllocRun} {kind : AllocKind} {env : Ext2Env} {x : U32} {v : Buffered U32 Bytes}
      (done : (kind.program env).run run.volume = some (x, v)) :
      VolumeAllocStep run (kind, env) { volume := v, returned := (kind, x) :: run.returned }

/-- Sequences of allocations on an image. -/
def allocSystem (image : Buffered U32 Bytes) : System AllocRun (AllocKind × Ext2Env) where
  Start run := run = { volume := image, returned := [] }
  Step := VolumeAllocStep

/-- The bitmap of the call has a zero bit on the disk. -/
def BitLeft (run : AllocRun) (call : AllocKind × Ext2Env) : Prop :=
  (freeBits (run.volume.disk (call.1.bitmap run.volume))).Nonempty

/-- What the allocations made so far have done to the image. -/
structure Allocated (image : Buffered U32 Bytes) (run : AllocRun) : Prop where
  descriptors : run.volume.view 2#32 = image.view 2#32
  written : ∀ kind : AllocKind,
    run.volume.view (kind.bitmap image) = run.volume.disk (kind.bitmap image)
  distinct : run.returned.Nodup
  fresh : ∀ call ∈ run.returned, ∃ k ∈ freeBits (image.disk (call.1.bitmap image)),
    call.2 = BitVec.ofNat 32 (k + 1)
  bits : ∀ (kind : AllocKind) (k : Nat), k < bitCount →
    bitSet (run.volume.disk (kind.bitmap image)) k =
      (bitSet (image.disk (kind.bitmap image)) k ||
        decide ((kind, BitVec.ofNat 32 (k + 1)) ∈ run.returned))
  others : ∀ b, (∀ kind : AllocKind, b ≠ kind.bitmap image) →
    run.volume.disk b = image.disk b

namespace Allocated

variable {image : Buffered U32 Bytes} {run : AllocRun}

/-- Nothing is allocated yet. -/
theorem start (clean : ∀ kind : AllocKind,
    image.view (kind.bitmap image) = image.disk (kind.bitmap image)) :
    Allocated image { volume := image, returned := [] } :=
  ⟨rfl, clean, nodup_nil, by simp, by simp, fun _ _ => rfl⟩

/-- A bit that is zero now was zero on the image and its number is not out. -/
theorem of_free (done : Allocated image run) {kind : AllocKind} {k : Nat}
    (free : k ∈ freeBits (run.volume.disk (kind.bitmap image))) :
    k ∈ freeBits (image.disk (kind.bitmap image)) ∧
      (kind, BitVec.ofNat 32 (k + 1)) ∉ run.returned := by
  obtain ⟨inside, clear⟩ := mem_freeBits.mp free
  rw [done.bits kind k inside, Bool.or_eq_false_iff, decide_eq_false_iff_not] at clear
  exact ⟨mem_freeBits.mpr ⟨inside, clear.1⟩, clear.2⟩

/-- The numbers of two bits of a bitmap differ. -/
theorem bitNumber_inj {k num : Nat} (inside : k < bitCount) (below : num < bitCount)
    (same : BitVec.ofNat 32 (k + 1) = BitVec.ofNat 32 (num + 1)) : k = num := by
  have numbers := congrArg BitVec.toNat same
  rw [toNat_bitNumber inside, toNat_bitNumber below] at numbers
  omega

/-- Taking a zero bit of the bitmap of `kind`. -/
theorem take (done : Allocated image run) (apart : ThreeBlocks image) {kind : AllocKind}
    {num : Nat} (free : num ∈ freeBits (run.volume.disk (kind.bitmap image))) :
    Allocated image
      { volume := run.volume.put (kind.bitmap image)
          (setBit (run.volume.disk (kind.bitmap image)) num)
        returned := (kind, BitVec.ofNat 32 (num + 1)) :: run.returned } := by
  obtain ⟨wasFree, isNew⟩ := done.of_free free
  have inside := (mem_freeBits.mp free).1
  refine ⟨?_, ?_, ?_, ?_, ?_, ?_⟩
  · rw [put_view_other (apart.descriptors kind).symm]
    exact done.descriptors
  · intro other
    by_cases same : other = kind
    · subst same
      rw [put_view_self, put_disk_self]
    · have elsewhere : other.bitmap image ≠ kind.bitmap image := fun equal =>
        same (apart.injective equal)
      rw [put_view_other elsewhere, put_disk_other elsewhere]
      exact done.written other
  · exact nodup_cons.mpr ⟨isNew, done.distinct⟩
  · rintro call (_ | ⟨_, member⟩)
    · exact ⟨num, wasFree, rfl⟩
    · exact done.fresh call member
  · intro other k below
    by_cases same : other = kind
    · subst same
      rw [put_disk_self, bitSet_setBit inside below, done.bits other k below]
      by_cases isNum : k = num
      · subst isNum
        simp
      · have otherNumber : BitVec.ofNat 32 (k + 1) ≠ BitVec.ofNat 32 (num + 1) := fun equal =>
          isNum (bitNumber_inj below inside equal)
        simp [isNum, otherNumber]
    · have elsewhere : other.bitmap image ≠ kind.bitmap image := fun equal =>
        same (apart.injective equal)
      rw [put_disk_other elsewhere, done.bits other k below]
      simp [same]
  · intro b elsewhere
    rw [put_disk_other (elsewhere kind)]
    exact done.others b elsewhere

/-- A call with a zero bit left takes the first one. -/
theorem call (done : Allocated image run) {kind : AllocKind} {env : Ext2Env}
    (left : BitLeft run (kind, env)) :
    ∃ num, num ∈ freeBits (run.volume.disk (kind.bitmap image)) ∧
      (∀ k ∈ freeBits (run.volume.disk (kind.bitmap image)), num ≤ k) ∧
      (kind.program env).run run.volume = some (BitVec.ofNat 32 (num + 1),
        run.volume.put (kind.bitmap image)
          (setBit (run.volume.disk (kind.bitmap image)) num)) := by
  have isBitmap := kind.bitmap_congr done.descriptors
  have someFree : (freeBits (run.volume.view (kind.bitmap image))).Nonempty := by
    rw [done.written kind, ← isBitmap]
    exact left
  obtain ⟨num, free, first, allocated⟩ := ext2AllocBit_run env someFree
  rw [done.written kind] at free first allocated
  refine ⟨num, free, first, ?_⟩
  rw [kind.program_run env run.volume, isBitmap]
  exact allocated

theorem step (done : Allocated image run) (apart : ThreeBlocks image)
    {event : AllocKind × Ext2Env} {after : AllocRun} (left : BitLeft run event)
    (taken : VolumeAllocStep run event after) : Allocated image after := by
  cases taken with
  | call ran =>
    obtain ⟨num, free, _, allocated⟩ := done.call left
    rw [allocated] at ran
    cases ran
    exact done.take apart free

theorem of_reachable (apart : ThreeBlocks image)
    (clean : ∀ kind : AllocKind,
      image.view (kind.bitmap image) = image.disk (kind.bitmap image))
    (reached : ((allocSystem image).restrict BitLeft).Reachable run) : Allocated image run := by
  refine reached.invariant (Allocated image) ?_ ?_
  · rintro _ rfl
    exact start clean
  · rintro before event after done ⟨left, taken⟩
    exact done.step apart left taken

end Allocated

/-- Allocation over whole runs: whatever was allocated before, a call with a zero
bit left returns one more than the first of them; the numbers returned are free on
the image and no two of a kind are equal; and the disk differs from the image in
exactly their bits. -/
theorem allocations_fresh {image : Buffered U32 Bytes} (apart : ThreeBlocks image)
    (clean : ∀ kind : AllocKind,
      image.view (kind.bitmap image) = image.disk (kind.bitmap image))
    {run : AllocRun} (reached : ((allocSystem image).restrict BitLeft).Reachable run) :
    (∀ kind env, BitLeft run (kind, env) → ∃ num v,
      IsLeast {k | k < 8192 ∧ bitSet (run.volume.disk (kind.bitmap image)) k = false} num ∧
      (kind.program env).run run.volume = some (BitVec.ofNat 32 (num + 1), v)) ∧
    run.returned.Nodup ∧
    (∀ call ∈ run.returned, ∃ k < 8192,
      bitSet (image.disk (call.1.bitmap image)) k = false ∧ call.2 = BitVec.ofNat 32 (k + 1)) ∧
    (∀ (kind : AllocKind) (k : Nat), k < 8192 →
      bitSet (run.volume.disk (kind.bitmap image)) k =
        (bitSet (image.disk (kind.bitmap image)) k ||
          decide ((kind, BitVec.ofNat 32 (k + 1)) ∈ run.returned))) ∧
    ∀ b, (∀ kind : AllocKind, b ≠ kind.bitmap image) → run.volume.disk b = image.disk b := by
  have done := Allocated.of_reachable apart clean reached
  refine ⟨?_, done.distinct, ?_, done.bits, done.others⟩
  · intro kind env left
    obtain ⟨num, free, first, allocated⟩ := done.call left
    exact ⟨num, _, ⟨mem_freeBits.mp free, fun k isFree => first k (mem_freeBits.mpr isFree)⟩,
      allocated⟩
  · intro call member
    obtain ⟨k, free, isNumber⟩ := done.fresh call member
    obtain ⟨inside, clear⟩ := mem_freeBits.mp free
    exact ⟨k, inside, clear, isNumber⟩

/-- The first 32 blocks of the small volume are in use, and the first allocation gets
block 33. -/
theorem small_volume_allocation :
    ∃ run : AllocRun, ((allocSystem smallVolume).restrict BitLeft).Reachable run ∧
      run.returned = [(.block, 33#32)] ∧ bitSet (run.volume.disk 3#32) 32 = true ∧
      run.volume.disk 7#32 = smallVolume.disk 7#32 := by
  have apart : ThreeBlocks smallVolume := ⟨by decide +kernel, fun kind => by
    cases kind <;> decide +kernel⟩
  have isBitmap : AllocKind.bitmap smallVolume .block = 3#32 := by decide +kernel
  have elsewhere : ∀ kind, 7#32 ≠ AllocKind.bitmap smallVolume kind := fun kind => by
    cases kind <;> decide +kernel
  have left : BitLeft { volume := smallVolume, returned := [] } (.block, clearEnv) :=
    ⟨32, mem_freeBits.mpr (by decide +kernel)⟩
  have returns : ((AllocKind.block.program clearEnv).run smallVolume).map Prod.fst =
      some 33#32 := by decide +kernel
  obtain ⟨⟨x, v⟩, ran, isNumber⟩ := map_eq_some_iff.mp returns
  cases isNumber
  have reached : ((allocSystem smallVolume).restrict BitLeft).Reachable
      { volume := v, returned := [(.block, 33#32)] } :=
    .step (.start rfl) ⟨left, .call ran⟩
  obtain ⟨_, _, _, bits, others⟩ := allocations_fresh apart (fun _ => rfl) reached
  have taken := bits .block 32 (by decide)
  rw [isBitmap] at taken
  refine ⟨_, reached, rfl, ?_, others 7#32 elsewhere⟩
  simpa using taken

end Crunchy
