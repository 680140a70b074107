/-
Module: Crunchy.Proofs.Ext2RoundTrip
Purpose: What `ext2_open` reads of a file that `ext2_touch` has written, block by
  block, and for which files that is what was written.
Trusted boundary: none
Main exports: seenPointer, openLoop_run, Created.reads, RoundTrips, touch_open_round_trip
-/
import Crunchy.Proofs.Ext2Frame

namespace Crunchy

open Lib

/-- The block from which `ext2_open` takes block `j` of a file. For block 12 it fetches
the pointer to the indirect block, and reads the block before once more. -/
def seenPointer (v : Buffered U32 Bytes) (i : Bytes) (j : Nat) : U32 :=
  if j = 12 then filePointer v i 11 else filePointer v i j

variable {v v' : Buffered U32 Bytes} {used : List U32} {env : Ext2Env} {data : Bytes}
  {table indirect blocknum : U32} {offset n count j q index : Nat} {name : List (BitVec 8)}
  {buf : Bytes}

/-- The choice of the block in one round of the loop. -/
theorem openBlock_run (inside : j < 268)
    (link : 12 < j → indirect = get32 (v.view table) (offset + 88))
    (kept : j = 12 → blocknum = filePointer v (fun k => v.view table (offset + k)) 11) :
    (openBlock (v.view table) offset j indirect blocknum).run v =
      some ((if j < 12 then indirect else get32 (v.view table) (offset + 88),
        seenPointer v (fun k => v.view table (offset + k)) j), v) := by
  unfold openBlock
  -- block 12 is the branch that leaves `blocknum` alone
  rcases Nat.lt_trichotomy j 12 with few | rfl | many
  · rw [if_pos few, if_pos few, seenPointer, if_neg (Nat.ne_of_lt few), filePointer_direct few,
      get32_shift]
    rfl
  · rw [if_neg (Nat.lt_irrefl 12), if_pos rfl, if_neg (Nat.lt_irrefl 12), seenPointer, if_pos rfl,
      ← kept rfl]
    rfl
  · have inBlock : j - 12 < 256 := by omega
    rw [if_neg (Nat.lt_asymm many), if_neg (Nat.ne_of_gt many), if_neg (Nat.lt_asymm many),
      Access.run_bind, ext2ReadIndirect_run inBlock, seenPointer, if_neg (Nat.ne_of_gt many),
      filePointer_indirect (Nat.le_of_lt many), get32_shift, link many]
    rfl

/-- The loop copies the blocks it sees, and at most one block more behind them. -/
theorem openLoop_run (rounds : j + count = q + 1) (inside : q < 268)
    (used : ∀ k < q, seenPointer v (fun k => v.view table (offset + k)) k ≠ 0#32)
    (link : 12 < j → indirect = get32 (v.view table) (offset + 88))
    (kept : j = 12 → blocknum = filePointer v (fun k => v.view table (offset + k)) 11) :
    ∃ buf', (openLoop table offset count j indirect blocknum buf).run v = some (buf', v) ∧
      ∀ k < q, ∀ o < 1024, buf' (k * 1024 + o) =
        if j ≤ k then v.view (seenPointer v (fun k => v.view table (offset + k)) k) o
        else buf (k * 1024 + o) := by
  induction count generalizing j indirect blocknum buf with
  | zero =>
    refine ⟨buf, rfl, fun k before o _ => ?_⟩
    rw [if_neg (by omega)]
  | succ count ih =>
    have chosen := openBlock_run (by omega : j < 268) link kept
    rw [openLoop]
    simp only [Access.run_bind, run_bufferRead, Option.bind_some, chosen]
    by_cases ended : seenPointer v (fun k => v.view table (offset + k)) j = 0#32
    · -- only the round behind the last block can end the loop early
      rw [if_pos ended]
      have behind : q ≤ j := by
        by_contra before
        exact used j (Nat.not_le.mp before) ended
      refine ⟨buf, rfl, fun k before o _ => ?_⟩
      rw [if_neg (by omega)]
    · rw [if_neg ended]
      have linkNext : 12 < j + 1 →
          (if j < 12 then indirect else get32 (v.view table) (offset + 88)) =
            get32 (v.view table) (offset + 88) := fun many => if_neg (by omega)
      have keptNext : j + 1 = 12 → seenPointer v (fun k => v.view table (offset + k)) j =
          filePointer v (fun k => v.view table (offset + k)) 11 := by
        intro last
        obtain rfl : j = 11 := by omega
        rfl
      obtain ⟨buf', ran, copied⟩ := ih (by omega) linkNext keptNext
      refine ⟨buf', ran, fun k before o inBlock => ?_⟩
      rw [copied k before o inBlock]
      rcases Nat.lt_trichotomy k j with earlier | rfl | later
      · rw [if_neg (by omega), if_neg (by omega)]
        exact patch_outside (by simp only [ext2BlockSize]; omega)
      · rw [if_neg (by omega), if_pos (Nat.le_refl k)]
        have start : k * 1024 ≤ k * 1024 + o := Nat.le_add_right _ _
        refine (patch_inside start (by simp only [ext2BlockSize]; omega)).trans ?_
        rw [Nat.add_sub_cancel_left]
      · rw [if_pos (by omega), if_pos (by omega)]

/-- `ext2_open(ext2_inode(1, ino))`. -/
def openInode (env : Ext2Env) (ino : U32) : DiskProgram (Option Bytes) := do
  let (table, offset) ← ext2Inode ino
  ext2Open env table offset

/-- What `ext2_open` returns in place of the bytes of `data`: for the thirteenth
block the bytes of the twelfth. -/
def readBack (data : Bytes) (k : Nat) : BitVec 8 :=
  if 12 * 1024 ≤ k ∧ k < 13 * 1024 then data (k - 1024) else data k

namespace Created

/-- The new file has blocks to read. -/
theorem seen_used (created : Created v v' data n index used) (image : Ext2Image v) {k : Nat}
    (before : k < blockCount n) :
    seenPointer v' (inodeAt v' (inodeTableOf v) index) k ≠ 0#32 := by
  have notZero : ∀ j < blockCount n,
      filePointer v' (inodeAt v' (inodeTableOf v) index) j ≠ 0#32 := by
    intro j inFile isZero
    have free := created.free _ (created.stored.mine j inFile)
    rw [isZero] at free
    exact image.inUse _ (by simp [reservedBlocks]) free
  unfold seenPointer
  split
  · exact notZero 11 (by omega)
  · exact notZero k before

/-- What `ext2_open` reads of the new file. -/
theorem reads (env : Ext2Env) (created : Created v v' data n index used) (image : Ext2Image v)
    (few : blockCount n ≤ 255) :
    ∃ buf, (openInode env (BitVec.ofNat 32 (index + 1))).run v' = some (some buf, v') ∧
      ∀ k < n, buf k = readBack data k := by
  have found := created.layout.ext2Inode_run image created.inGroup
  have numBlocks : (get32 (v'.view (slotBlock (inodeTableOf v) index))
      (slotOffset index + InodeField.blocks)).toNat / 2 = blockCount n + 1 := by
    have sectors := (get32_shift _ _ _).symm.trans created.stored.sectors
    rw [InodeField.blocks, sectors]
    exact sectors_half (by omega)
  obtain ⟨buf, ran, copied⟩ := openLoop_run (Nat.zero_add (blockCount n + 1)) (by omega)
    (fun k before => created.seen_used image before) (fun many => absurd many (Nat.not_lt_zero 12))
    (fun twelfth => absurd twelfth (by decide))
  refine ⟨buf, ?_, ?_⟩
  · simp only [openInode, Access.run_bind, found, Option.bind_some, ext2Open, run_bufferRead,
      numBlocks, if_neg (Nat.succ_ne_zero _)]
    rw [ran]
    rfl
  · intro k inFile
    have inBlocks : k / 1024 < blockCount n :=
      lt_blockCount_iff.mpr (Nat.lt_of_le_of_lt (Nat.div_mul_le_self k 1024) inFile)
    have here := copied (k / 1024) inBlocks (k % 1024) (Nat.mod_lt k (by decide))
    rw [if_pos (Nat.zero_le _), Nat.div_add_mod'] at here
    rw [here]
    unfold seenPointer readBack
    by_cases thirteenth : k / 1024 = 12
    · have back : k - 1024 = 11 * 1024 + k % 1024 := by omega
      rw [if_pos thirteenth, if_pos (by omega), back]
      exact created.stored.holds 11 (by omega) (k % 1024) (Nat.mod_lt k (by decide)) (by omega)
    · have read := created.stored.holds (k / 1024) inBlocks (k % 1024) (Nat.mod_lt k (by decide))
        (by omega)
      rw [Nat.div_add_mod'] at read
      rw [if_neg thirteenth, if_neg (by omega)]
      exact read

end Created

/-- The file is created, and reading its inode back gives the bytes it was created
with. -/
def RoundTrips (env : Ext2Env) (v : Buffered U32 Bytes) (name : List (BitVec 8)) (data : Bytes)
    (n : Nat) : Prop :=
  ∃ ino v' buf v'', (ext2Touch env name data n).run v = some (ino, v') ∧
    (openInode env ino).run v' = some (some buf, v'') ∧ ∀ k < n, buf k = data k

/-- The bytes that are read back are those of the file if its thirteenth block, as
far as it has one, is like its twelfth. -/
theorem readBack_eq_iff (data : Bytes) (n : Nat) : (∀ k < n, readBack data k = data k) ↔
    ∀ k, 12 * 1024 ≤ k → k < 13 * 1024 → k < n → data k = data (k - 1024) := by
  constructor
  · intro same k start stop inFile
    have read := same k inFile
    rw [readBack, if_pos ⟨start, stop⟩] at read
    exact read.symm
  · intro alike k inFile
    unfold readBack
    split
    case isTrue thirteenth => exact (alike k thirteenth.1 thirteenth.2 inFile).symm
    case isFalse => rfl

/-- A file of up to twelve blocks is read back as it was written. A longer one is
only if its thirteenth block repeats its twelfth, and if it has at most 255 blocks:
the terminator of a longer one is behind the end of the indirect block. -/
theorem touch_open_round_trip (env : Ext2Env) (v : Buffered U32 Bytes)
    (name : List (BitVec 8)) (data : Bytes) (n : Nat) (image : Ext2Image v)
    (room : HasRoom v name n) (zero : env.ZeroInode) (small : n ≤ (12 + 256) * 1024) :
    RoundTrips env v name data n ↔ n ≤ 255 * 1024 ∧
      ∀ k, 12 * 1024 ≤ k → k < 13 * 1024 → k < n → data k = data (k - 1024) := by
  by_cases few : blockCount n ≤ 255
  · obtain ⟨index, v', used, ran, created⟩ := ext2Touch_run data image room zero few
    obtain ⟨buf, opened, reads⟩ := created.reads env image few
    have inTable : n ≤ 255 * 1024 := blockCount_le_iff.mp few
    rw [← readBack_eq_iff]
    constructor
    · rintro ⟨ino, v₁, buf₁, v₂, ran', opened', same⟩
      rw [ran] at ran'
      cases ran'
      rw [opened] at opened'
      cases opened'
      exact ⟨inTable, fun k inFile => (reads k inFile).symm.trans (same k inFile)⟩
    · rintro ⟨_, alike⟩
      exact ⟨_, v', buf, v', ran, opened, fun k inFile => (reads k inFile).trans (alike k inFile)⟩
  · have many : 255 * 1024 < n := Nat.not_le.mp fun inTable => few (blockCount_le_iff.mpr inTable)
    have stuck := ext2Touch_overrun name data v zero (Nat.not_le.mp few) (by omega)
    constructor
    · rintro ⟨ino, v', buf, v'', ran, _⟩
      rw [stuck] at ran
      cases ran
    · rintro ⟨inTable, _⟩
      omega

/-- A file of two blocks on the small volume. -/
theorem two_blocks_round_trip :
    RoundTrips clearEnv smallVolume [0x61#8] (fun k => BitVec.ofNat 8 k) (2 * 1024) :=
  (touch_open_round_trip clearEnv smallVolume [0x61#8] (fun k => BitVec.ofNat 8 k) (2 * 1024)
    smallVolume_image (smallVolume_room (by decide) (by decide)) clearEnv_zero (by decide)).mpr
      ⟨by decide, fun k start _ inFile => by omega⟩

/-- A file with its block number in every byte. -/
def stripes : Bytes := fun k => BitVec.ofNat 8 (k / 1024)

/-- Such a file of thirteen blocks: the call succeeds, and the first byte of its last
block is read back as one of the block before. -/
theorem thirteenth_block_misread :
    Ext2Image smallVolume ∧ HasRoom smallVolume [0x61#8] (13 * 1024) ∧
    ∃ ino v' buf v'', (ext2Touch clearEnv [0x61#8] stripes (13 * 1024)).run smallVolume =
        some (ino, v') ∧
      (openInode clearEnv ino).run v' = some (some buf, v'') ∧
      buf (12 * 1024) = 11#8 ∧ stripes (12 * 1024) = 12#8 := by
  have image := smallVolume_image
  have room : HasRoom smallVolume [0x61#8] (13 * 1024) := smallVolume_room (by decide) (by decide)
  obtain ⟨index, v', used, ran, created⟩ :=
    ext2Touch_run stripes image room clearEnv_zero (by decide)
  obtain ⟨buf, opened, reads⟩ := created.reads clearEnv image (by decide)
  refine ⟨image, room, _, v', buf, v', ran, opened, ?_, rfl⟩
  rw [reads _ (by decide)]
  rfl

end Crunchy
