/-
Module: Crunchy.Proofs.Ext2Seek
Purpose: What `ext2_file_seek` returns and reads, for files of at most twelve blocks. It copies
  whole blocks, the first of them from the offset in it on.
Trusted boundary: none
Main exports: fileBlock, seekByte, fileSeekLoop_run, SeekRequest, SeeksRight, file_seek_iff
-/
import Crunchy.Proofs.Ext2Alloc

namespace Crunchy

open Lib BitVec Option List

variable {v : Buffered U32 Bytes}

/-! ### The bytes of a file -/

/-- The number of block `q` of the file whose inode is at `inodeAt` of block `table`. -/
def fileBlock (v : Buffered U32 Bytes) (table : U32) (inodeAt q : Nat) : U32 :=
  get32 (v.view table) (inodeAt + InodeField.block q)

/-- Byte `k` of the file. -/
def seekByte (v : Buffered U32 Bytes) (table : U32) (inodeAt k : Nat) : BitVec 8 :=
  v.view (fileBlock v table inodeAt (k / ext2BlockSize)) (k % ext2BlockSize)

theorem seekByte_eq (v : Buffered U32 Bytes) (table : U32) (inodeAt k : Nat) :
    seekByte v table inodeAt k = v.view (fileBlock v table inodeAt (k / 1024)) (k % 1024) := rfl

/-- How many blocks it has. -/
def fileBlocks (v : Buffered U32 Bytes) (table : U32) (inodeAt : Nat) : Nat :=
  (get32 (v.view table) (inodeAt + InodeField.blocks)).toNat / 2

/-! ### The loop -/

variable (behind : U32 → Bytes) (table : U32) (inodeAt offBlock : Nat)

/-- One round. -/
theorem fileSeekLoop_succ (left i off : Nat) (buf : Bytes) (reads : List DataRead) :
    (fileSeekLoop behind table inodeAt offBlock (left + 1) i off buf reads).run v =
      (fileSeekLoop behind table inodeAt offBlock left (i + 1) 0
        (patch buf (i * 1024) 1024 fun j =>
          patch (behind (fileBlock v table inodeAt (offBlock + i))) 0 1024
            (v.view (fileBlock v table inodeAt (offBlock + i))) (off + j))
        (reads ++ [⟨fileBlock v table inodeAt (offBlock + i), off, 1024⟩])).run v := by
  rfl

/-- What the loop reads from round `i` on, once `off` is 0. -/
def alignedReads (v : Buffered U32 Bytes) (table : U32) (inodeAt offBlock i left : Nat) :
    List DataRead :=
  (List.range' i left).map fun q => ⟨fileBlock v table inodeAt (offBlock + q), 0, 1024⟩

/-- Without an offset in the block, the loop brings the blocks of the file to their places. -/
theorem fileSeekLoop_run (left i : Nat) (buf : Bytes) (reads : List DataRead) :
    ∃ result, (fileSeekLoop behind table inodeAt offBlock left i 0 buf reads).run v =
        some ((result, reads ++ alignedReads v table inodeAt offBlock i left), v) ∧
      (∀ k < i * 1024, result k = buf k) ∧
      ∀ k, i * 1024 ≤ k → k < (i + left) * 1024 →
        result k = seekByte v table inodeAt (offBlock * 1024 + k) := by
  induction left generalizing i buf reads with
  | zero =>
    refine ⟨buf, ?_, fun _ _ => rfl, fun k start stop => by omega⟩
    simp [fileSeekLoop, alignedReads]
  | succ left ih =>
    rw [fileSeekLoop_succ]
    obtain ⟨result, ran, before, later⟩ := ih (i + 1) _ _
    refine ⟨result, ?_, fun k early => ?_, fun k start stop => ?_⟩
    · rw [ran, alignedReads, alignedReads, List.range'_succ, List.map_cons, List.append_assoc,
        List.singleton_append]
    · have inFront : k < (i + 1) * 1024 :=
        Nat.lt_of_lt_of_le early (Nat.mul_le_mul_right _ (Nat.le_succ i))
      rw [before k inFront, patch_outside (Or.inl early)]
    · by_cases here : k < (i + 1) * 1024
      · -- the block that this round has copied
        have place : (offBlock * 1024 + k) / 1024 = offBlock + i := by omega
        have byte : (offBlock * 1024 + k) % 1024 = k - i * 1024 := by omega
        rw [before k here, patch_inside start (by omega), patch_inside (Nat.zero_le _) (by omega),
          seekByte_eq, place, byte, Nat.zero_add, Nat.sub_zero]
      · refine later k (Nat.le_of_not_lt here) ?_
        rw [Nat.add_assoc, Nat.add_comm 1 left]
        exact stop

theorem reads_of_run {left i : Nat} {buf result : Bytes} {reads all : List DataRead}
    (ran : (fileSeekLoop behind table inodeAt offBlock left i 0 buf reads).run v =
      some ((result, all), v)) : all = reads ++ alignedReads v table inodeAt offBlock i left := by
  obtain ⟨_, same, _⟩ := fileSeekLoop_run (v := v) behind table inodeAt offBlock left i buf reads
  rw [same] at ran
  cases ran
  rfl

/-! ### Requests -/

variable {behind : U32 → Bytes} {table : U32} {inodeAt : Nat}

/-- A request in the file: at least one byte of a file of at most twelve blocks, none of them
behind its blocks. -/
structure SeekRequest (v : Buffered U32 Bytes) (table : U32) (inodeAt : Nat) (n offset : U32) :
    Prop where
  direct : fileBlocks v table inodeAt ≤ 12
  some : 1 ≤ n.toNat
  inside : offset.toNat + n.toNat ≤ fileBlocks v table inodeAt * 1024

/-- The first `n` bytes that the call returns are those of the file from `offset` on, and all
that it reads are bytes of the file's blocks. -/
def SeeksRight (v : Buffered U32 Bytes) (env : Ext2Env) (behind : U32 → Bytes) (table : U32)
    (inodeAt : Nat) (n offset : U32) : Prop :=
  ∃ buf reads, (ext2FileSeek env behind table inodeAt n offset).run v = some ((buf, reads), v) ∧
    (∀ k < n.toNat, buf k = seekByte v table inodeAt (offset.toNat + k)) ∧
    ∀ read ∈ reads, (∃ q < fileBlocks v table inodeAt, read.block = fileBlock v table inodeAt q) ∧
      read.start + read.count ≤ 1024

/-- The number of blocks is that of the bytes, rounded up. -/
theorem seekBlocks_eq {n : U32} (some : 1 ≤ n.toNat) (small : n.toNat ≤ 2 ^ 31) :
    seekBlocks n = (n.toNat + 1023) / 1024 := by
  have sum : (n - 1#32 + 1024#32).toNat = n.toNat + 1023 := by
    rw [toNat_add, toNat_sub]
    simp only [toNat_ofNat]
    omega
  have masked : ((n - 1#32 + 1024#32) &&& ~~~(1024#32 - 1#32)).toNat =
      (n - 1#32 + 1024#32).toNat / 2 ^ 10 * 2 ^ 10 :=
    toNat_and_not_lowMask (k := 10) _ (by decide)
  have unfolded : seekBlocks n =
      ((n - 1#32 + 1024#32) &&& ~~~(1024#32 - 1#32)).toNat / 1024 := toNat_udiv
  omega

/-- The call gets the bytes that are asked for, and reads bytes of the file only, exactly when
the offset is that of a block. -/
theorem file_seek_iff {env : Ext2Env} {n offset : U32}
    (request : SeekRequest v table inodeAt n offset) :
    SeeksRight v env behind table inodeAt n offset ↔ offset.toNat % 1024 = 0 := by
  obtain ⟨direct, some, inside⟩ := request
  have count := seekBlocks_eq some (by omega)
  have unfolded : ext2FileSeek env behind table inodeAt n offset =
      fileSeekLoop behind table inodeAt (offset.toNat / 1024) ((n.toNat + 1023) / 1024) 0
        (offset.toNat % 1024) env.fileMemory [] := by
    rw [← count]
    rfl
  rw [SeeksRight, unfolded]
  constructor
  · rintro ⟨buf, reads, ran, _, own⟩
    -- the first round reads 1024 bytes from the offset in the block on
    obtain ⟨left, rounds⟩ : ∃ left, (n.toNat + 1023) / 1024 = left + 1 :=
      ⟨(n.toNat + 1023) / 1024 - 1, by omega⟩
    rw [rounds, fileSeekLoop_succ] at ran
    have first := (own ⟨_, offset.toNat % 1024, 1024⟩
      (by rw [reads_of_run _ _ _ _ ran]; exact mem_cons_self)).2
    exact Nat.eq_zero_of_le_zero (Nat.le_of_add_le_add_right first)
  · intro aligned
    rw [aligned]
    obtain ⟨result, ran, _, bytes⟩ := fileSeekLoop_run (v := v) behind table inodeAt
      (offset.toNat / 1024) ((n.toNat + 1023) / 1024) 0 env.fileMemory []
    refine ⟨result, _, ran, fun k below => ?_, fun read member => ?_⟩
    · have inBlocks : k < (0 + (n.toNat + 1023) / 1024) * 1024 := by
        omega
      have place : offset.toNat / 1024 * 1024 + k = offset.toNat + k := by omega
      rw [bytes k (by rw [Nat.zero_mul]; exact Nat.zero_le k) inBlocks, place]
    · obtain ⟨q, isRound, rfl⟩ := mem_map.mp member
      obtain ⟨low, high⟩ := mem_range'_1.mp isRound
      exact ⟨⟨offset.toNat / 1024 + q, by omega, rfl⟩, Nat.le_refl 1024⟩

/-- A file of two blocks, 33 and 34, each filled with its number; its inode is the first of
block 5. -/
def twoBlockFile : Buffered U32 Bytes where
  view block :=
    if block = 5#32 then put32 (put32 (put32 (fun _ => 0#8) 28 4#32) 40 33#32) 44 34#32
    else fun _ => block.setWidth 8
  disk _ _ := 0#8

/-- The clock and the memory do not matter. -/
def idleEnv : Ext2Env := ⟨0#32, 0#32, 0#32, 0#32, fun _ => 0#32, fun _ => 0#8, fun _ => 0#8⟩

/-- 1025 bytes from the start of the file on. -/
theorem seek_from_start :
    SeeksRight twoBlockFile idleEnv (fun _ _ => 0xEE#8) 5#32 0 1025#32 0#32 :=
  (file_seek_iff ⟨by decide +kernel, by decide, by decide +kernel⟩).mpr rfl

/-- 1024 bytes from byte 1 on: the last of them comes from behind the data of the buffer. -/
theorem seek_unaligned :
    ¬ ∀ (v : Buffered U32 Bytes) (env : Ext2Env) (behind : U32 → Bytes) (table : U32)
        (inodeAt : Nat) (n offset : U32), SeekRequest v table inodeAt n offset →
      SeeksRight v env behind table inodeAt n offset := by
  intro all
  obtain ⟨buf, reads, ran, bytes, _⟩ := all twoBlockFile idleEnv (fun _ _ => 0xEE#8) 5#32 0 1024#32
    1#32 ⟨by decide +kernel, by decide, by decide +kernel⟩
  have last : ((ext2FileSeek idleEnv (fun _ _ => 0xEE#8) 5#32 0 1024#32 1#32).run
      twoBlockFile).map (fun result => result.1.1 1023) = some 0xEE#8 := by decide +kernel
  have file : seekByte twoBlockFile 5#32 0 1024 = 34#8 := by decide +kernel
  rw [ran, map_some] at last
  have wrong : seekByte twoBlockFile 5#32 0 1024 = 0xEE#8 :=
    (bytes 1023 (by decide)).symm.trans (Option.some.inj last)
  exact absurd (file.symm.trans wrong) (by decide)

end Crunchy
