/-
Module: Crunchy.Proofs.Ext2Lookup
Purpose: What `find_inode_in_dir` finds: the first entry whose bytes agree with as many bytes of
  the name as the entry's own length says.
Trusted boundary: none
Main exports: exactLookup, Agrees, agreeingLookup, Directory, findInodeInDir_run,
  lookup_exact_iff
-/
import Crunchy.Proofs.Ext2Dirents
import Mathlib.Data.List.Find

namespace Crunchy

open Lib BitVec Option List Access

variable {v : Buffered U32 Bytes} {env : Ext2Env} {buf memory dir : Bytes} {d size fuel : Nat}
  {entries rest : List DirEntry} {name : List (BitVec 8)}

/-! ### What is looked up -/

/-- The exact lookup: the first entry in use with just this name. -/
def exactLookup (entries : List DirEntry) (name : List (BitVec 8)) : U32 :=
  ((entries.find? fun entry => entry.1 ≠ 0#32 ∧ entry.2 = name).map Prod.fst).getD noInode

/-- The bytes of the entry's name are the first bytes of the memory. -/
def Agrees (memory : Bytes) (entry : DirEntry) : Prop :=
  entry.2 = (List.range entry.2.length).map memory

instance (memory : Bytes) (entry : DirEntry) : Decidable (Agrees memory entry) :=
  inferInstanceAs (Decidable (_ = _))

/-- The first entry that agrees. -/
def firstAgreeing (memory : Bytes) (entries : List DirEntry) : Option DirEntry :=
  entries.find? fun entry => Agrees memory entry

/-- The inode of the first entry that agrees. -/
def agreeingLookup (entries : List DirEntry) (memory : Bytes) : U32 :=
  ((firstAgreeing memory entries).map Prod.fst).getD noInode

/-- A name agrees with its own string. -/
theorem CString.agrees (isName : CString memory name) {entry : DirEntry} (same : entry.2 = name) :
    Agrees memory entry := by
  rw [Agrees, same]
  refine ext_getElem (by simp) fun j inside _ => ?_
  rw [getElem_map, getElem_range, isName.chars j inside]

/-! ### The walk -/

/-- The entries from `d` on, along the record lengths up to `size`. -/
inductive Walk (buf : Bytes) (size : Nat) : Nat → List DirEntry → Prop
  | ends : Walk buf size size []
  | entry {d : Nat} {entries : List DirEntry} (moves : 0 < recLenAt buf d)
      (inside : d + recLenAt buf d ≤ size) (rest : Walk buf size (d + recLenAt buf d) entries) :
      Walk buf size d (entryAt buf d :: entries)

/-- The test of an entry. -/
theorem strncmp_entry (buf memory : Bytes) (d : Nat) :
    strncmp (fun j => buf (d + Dirent.name + j)) memory (buf (d + Dirent.nameLen)).toNat = 0 ↔
      Agrees memory (entryAt buf d) := by
  rw [strncmp_eq_zero_iff, Agrees]
  simp only [entryAt, length_map, length_range]
  rw [map_inj_left]
  simp only [mem_range]
  rfl

/-- The loop returns the inode of the first entry that agrees. -/
theorem Walk.dirFind (walk : Walk buf size d entries) (more : d < size)
    (fuelled : size < d + fuel) :
    dirFind buf memory size fuel d d = some (agreeingLookup entries memory) := by
  induction walk generalizing fuel with
  | ends => omega
  | @entry d entries moves inside rest ih =>
    cases fuel with
    | zero => omega
    | succ fuel =>
      have step : Crunchy.dirFind buf memory size (fuel + 1) d d =
          if strncmp (fun j => buf (d + Dirent.name + j)) memory
              (buf (d + Dirent.nameLen)).toNat = 0 then some (get32 buf d)
          else if d + recLenAt buf d < size then
            Crunchy.dirFind buf memory size fuel (d + recLenAt buf d) (d + recLenAt buf d)
          else some noInode := rfl
      rw [step]
      simp only [strncmp_entry, agreeingLookup, firstAgreeing, find?_cons]
      by_cases agrees : Agrees memory (entryAt buf d)
      · rw [if_pos agrees, decide_eq_true agrees]
        rfl
      · rw [if_neg agrees, decide_eq_false agrees]
        by_cases goesOn : d + recLenAt buf d < size
        · rw [if_pos goesOn, ih goesOn (by omega)]
          rfl
        · have atEnd : d + recLenAt buf d = size := by omega
          rw [if_neg goesOn]
          cases rest with
          | ends => rfl
          | entry moves inside _ => omega

/-- An entry of a block is where the block is. -/
theorem entryAt_shift (buf : Bytes) (base d : Nat) :
    recLenAt (fun k => buf (base + k)) d = recLenAt buf (base + d) ∧
      entryAt (fun k => buf (base + k)) d = entryAt buf (base + d) := by
  constructor
  · rw [recLenAt, recLenAt, get16_shift, Nat.add_assoc]
  · simp only [entryAt, nameLenAt, get32_shift, Nat.add_assoc]

/-- The entries of a block, copied to `base`, come before those behind it. -/
theorem DirEntries.walk {base : Nat} (holds : DirEntries dir d entries)
    (copied : ∀ j < 1024, buf (base + j) = dir j) (fits : base + 1024 ≤ size)
    (behind : Walk buf size (base + 1024) rest) : Walk buf size (base + d) (entries ++ rest) := by
  induction holds with
  | ends => exact behind
  | @entry d entries fitsHere _ ih =>
    obtain ⟨_, holdsName, inBlock⟩ := fitsHere
    obtain ⟨lenAt, entryIs⟩ := entryAt_shift buf base d
    have sameLen : recLenAt buf (base + d) = recLenAt dir d := by
      rw [← lenAt, recLenAt, recLenAt, get16_congr fun j _ stop => copied j (by omega)]
    have sameEntry : entryAt buf (base + d) = entryAt dir d := by
      rw [← entryIs]
      exact (entryAt_congr dir _ d fun j _ stop _ => copied j (by omega)).2
    rw [List.cons_append, ← sameEntry]
    refine .entry ?_ ?_ ?_
    · rw [sameLen]
      omega
    · rw [sameLen]
      omega
    · rw [sameLen, Nat.add_assoc]
      exact ih

/-! ### The blocks of a directory -/

/-- A directory: its inode is at `offset` of block `table` and counts as many blocks,
at most twelve, as there are lists in `blocks`, and block `q` of it holds just the
entries of list `q`. -/
structure Directory (v : Buffered U32 Bytes) (ino table : U32) (offset : Nat)
    (blocks : List (List DirEntry)) : Prop where
  notZero : ino ≠ 0#32
  found : (ext2Inode ino).run v = some ((table, offset), v)
  direct : blocks.length ≤ 12
  sectors : get32 (v.view table) (offset + 28) = BitVec.ofNat 32 (2 * blocks.length)
  wellFormed : ∀ q, (inside : q < blocks.length) →
    dirEntries (v.view (get32 (v.view table) (offset + (40 + 4 * q)))) = some blocks[q]

/-- The copies of the blocks, one behind the other. -/
def copied (v : Buffered U32 Bytes) (table : U32) (offset : Nat) : (count q : Nat) → Bytes → Bytes
  | 0, _, buf => buf
  | count + 1, q, buf =>
    copied v table offset count (q + 1)
      (patch buf (q * 1024) 1024 (v.view (get32 (v.view table) (offset + (40 + 4 * q)))))

theorem dirCopy_run (table : U32) (offset count q : Nat) (buf : Bytes) :
    (dirCopy table offset count q buf).run v = some (copied v table offset count q buf, v) := by
  induction count generalizing q buf with
  | zero => rfl
  | succ count ih =>
    simp only [dirCopy, run_bind, run_bufferRead, bind_some, ih]
    rfl

/-- The copies behind leave what is before them. -/
theorem copied_before (table : U32) (offset count : Nat) {q i : Nat} (buf : Bytes)
    (before : i < q * 1024) : copied v table offset count q buf i = buf i := by
  induction count generalizing q buf with
  | zero => rfl
  | succ count ih =>
    have later : i < (q + 1) * 1024 :=
      Nat.lt_of_lt_of_le before (Nat.mul_le_mul_right _ (Nat.le_succ q))
    rw [copied, ih _ later, patch_outside (Or.inl before)]

theorem copied_block (table : U32) (offset : Nat) {count q p j : Nat} (buf : Bytes)
    (start : q ≤ p) (stop : p < q + count) (inBlock : j < 1024) :
    copied v table offset count q buf (p * 1024 + j) =
      v.view (get32 (v.view table) (offset + (40 + 4 * p))) j := by
  induction count generalizing q buf with
  | zero => omega
  | succ count ih =>
    rw [copied]
    rcases Nat.eq_or_lt_of_le start with rfl | later
    · have before : q * 1024 + j < (q + 1) * 1024 := by omega
      rw [copied_before (q := q + 1) table offset count _ before,
        patch_inside (Nat.le_add_right _ _) (by omega), Nat.add_sub_cancel_left]
    · exact ih _ later (by omega)

namespace Directory

variable {ino table : U32} {offset : Nat} {blocks : List (List DirEntry)}

/-- The copies hold the entries of all blocks in order. -/
theorem walk (directory : Directory v ino table offset blocks) (buf : Bytes) {left q : Nat}
    (rest : q + left = blocks.length) :
    Walk (copied v table offset blocks.length 0 buf) (blocks.length * 1024) (q * 1024)
      (blocks.drop q).flatten := by
  induction left generalizing q with
  | zero =>
    have atEnd : q = blocks.length := rest
    rw [atEnd, drop_length]
    exact .ends
  | succ left ih =>
    have inside : q < blocks.length := by omega
    have behind := ih (q := q + 1) (by omega)
    rw [Nat.succ_mul] at behind
    rw [drop_eq_getElem_cons inside, flatten_cons]
    have entries := dirEntries_eq_some_iff.mp (directory.wellFormed q inside)
    have fits : q * 1024 + 1024 ≤ blocks.length * 1024 := by omega
    have isCopy : ∀ j < 1024, copied v table offset blocks.length 0 buf (q * 1024 + j) =
        v.view (get32 (v.view table) (offset + (40 + 4 * q))) j := fun j inBlock =>
      copied_block table offset buf (Nat.zero_le q) (by omega) inBlock
    have walked := entries.walk isCopy fits behind
    rw [Nat.add_zero] at walked
    exact walked

/-- What the call does: it copies the blocks and walks their entries. -/
theorem run_eq (directory : Directory v ino table offset blocks) (env : Ext2Env)
    (memory : Bytes) :
    (findInodeInDir env memory ino).run v =
      (dirFind (copied v table offset blocks.length 0
        (patch env.fileMemory 0 (blocks.length * 1024) fun _ => 0#8)) memory
          (blocks.length * 1024) (blocks.length * 1024 + 1) 0 0).map fun found => (found, v) := by
  have few := directory.direct
  have half := sectors_half (q := blocks.length) (by omega)
  have size : (BitVec.ofNat 32 ext2BlockSize * BitVec.ofNat 32 (2 * blocks.length) / 2#32).toNat =
      blocks.length * 1024 := by
    rw [toNat_udiv, toNat_mul, toNat_ofNat, toNat_ofNat, toNat_ofNat]
    simp only [ext2BlockSize, Nat.reducePow, Nat.reduceMod]
    omega
  simp only [findInodeInDir, if_neg directory.notZero, run_bind, directory.found,
    bind_some, run_bufferRead, InodeField.blocks, directory.sectors, half, size, dirCopy_run]
  cases dirFind _ memory (blocks.length * 1024) (blocks.length * 1024 + 1) 0 0 <;> rfl

end Directory

end Crunchy
