/-
Module: Crunchy.Proofs.Ext2Directory
Purpose: The end of `ext2_touch`: the scan of the directory block for its last entry,
  the new entry behind it, and the counters of inodes.
Trusted boundary: none
Main exports: LastEntry, DirRoom, dirScan_run, enteredDir, touchDirectory_run, countInode_run
-/
import Crunchy.Proofs.Ext2Alloc

namespace Crunchy

open Lib Option

/-- The length of the record of the entry at `d`. -/
def recLenAt (dir : Bytes) (d : Nat) : Nat := (get16 dir (d + 4)).toNat

/-- The size the code computes for the entry at `d` from the length of its name. -/
def calcLenAt (dir : Bytes) (d : Nat) : Nat := direntLen (dir (d + 6)).toNat

/-- The records from `d` on end at the end of the block, the last of them at `last`. -/
inductive LastEntry (dir : Bytes) (last : Nat) : Nat → Prop
  | here (ends : last + recLenAt dir last = 1024) : LastEntry dir last last
  | next {d : Nat} (size : 8 ≤ recLenAt dir d) (more : d + recLenAt dir d < 1024)
      (rest : LastEntry dir last (d + recLenAt dir d)) : LastEntry dir last d

/-- There is room for one more entry behind the last one. -/
structure DirRoom (dir : Bytes) (name : List (BitVec 8)) (last : Nat) : Prop where
  entries : LastEntry dir last 0
  fits : last + calcLenAt dir last + 8 + name.length ≤ 1024
  checked : last + direntLen name.length ≤ 1024

variable {v : Buffered U32 Bytes} {env : Ext2Env} {block : U32}
  {d last fuel : Nat} {name : List (BitVec 8)}

theorem LastEntry.ends {dir : Bytes} (entries : LastEntry dir last d) :
    last + recLenAt dir last = 1024 := by
  induction entries with
  | here ends => exact ends
  | next _ _ _ ih => exact ih

theorem LastEntry.le {dir : Bytes} (entries : LastEntry dir last d) : d ≤ last := by
  induction entries with
  | here => exact Nat.le_refl _
  | next _ _ _ ih => exact Nat.le_of_add_right_le ih

/-- What the scan does at the last entry: it goes past one that has just its computed
size, gives up if there is no room behind the entry's start, and else cuts the entry
to its computed size. -/
def scanned (v : Buffered U32 Bytes) (block : U32) (length last : Nat) :
    Option Nat × Buffered U32 Bytes :=
  if recLenAt (v.view block) last = calcLenAt (v.view block) last then (some 1024, v)
  else if 1024 < last + length then (none, v)
  else (some (last + calcLenAt (v.view block) last),
    v.store block (put16 (v.view block) (last + 4)
      (BitVec.ofNat 16 (calcLenAt (v.view block) last))))

/-- The scan ends at the last entry. -/
theorem dirScan_run (length : Nat) (entries : LastEntry (v.view block) last d)
    (header : last + 8 ≤ 1024)
    (fuelled : 1024 < d + fuel) :
    (dirScan block length fuel d d).run v = some (scanned v block length last) := by
  -- on the chain of records, not on the fuel, which only has to last
  induction entries generalizing fuel with
  | here ends =>
    cases fuel with
    | zero => omega
    | succ fuel =>
      have inBlock : last + Dirent.fileType ≤ ext2BlockSize := by
        simp only [Dirent.fileType, ext2BlockSize]
        omega
      simp only [dirScan, Access.run_bind, run_bufferRead, bind_some, if_pos inBlock]
      show (if recLenAt (v.view block) last ≠ calcLenAt (v.view block) last ∧
          last + recLenAt (v.view block) last = ext2BlockSize then _ else
            if last + recLenAt (v.view block) last < ext2BlockSize then _ else
              pure (some (last + recLenAt (v.view block) last)) :
          DiskProgram (Option Nat)).run v = _
      by_cases tight : recLenAt (v.view block) last = calcLenAt (v.view block) last
      · have past : ¬last + recLenAt (v.view block) last < ext2BlockSize :=
          Nat.not_lt.mpr (Nat.le_of_eq ends.symm)
        rw [if_neg fun isLast => isLast.1 tight, if_neg past, scanned, if_pos tight, ends]
        rfl
      · rw [if_pos ⟨tight, ends⟩, scanned, if_neg tight]
        by_cases full : last + length > ext2BlockSize
        · rw [if_pos full, if_pos (show 1024 < last + length from full)]
          rfl
        · rw [if_neg full, if_neg (show ¬1024 < last + length from full)]
          rfl
  | @next d entry more rest ih =>
    cases fuel with
    | zero => omega
    | succ fuel =>
      have inBlock : d + Dirent.fileType ≤ ext2BlockSize := by
        simp only [Dirent.fileType, ext2BlockSize]
        omega
      have notLast : ¬(recLenAt (v.view block) d ≠ calcLenAt (v.view block) d ∧
          d + recLenAt (v.view block) d = ext2BlockSize) :=
        fun isLast => Nat.ne_of_lt more isLast.2
      have goesOn : d + recLenAt (v.view block) d < ext2BlockSize := more
      simp only [dirScan, Access.run_bind, run_bufferRead, bind_some, if_pos inBlock]
      show (if recLenAt (v.view block) d ≠ calcLenAt (v.view block) d ∧
          d + recLenAt (v.view block) d = ext2BlockSize then _ else
            if d + recLenAt (v.view block) d < ext2BlockSize then _ else _ :
          DiskProgram (Option Nat)).run v = _
      rw [if_neg notLast, if_pos goesOn]
      exact ih (by omega)

/-- The directory block with the new entry. -/
def enteredDir (dir : Bytes) (last : Nat) (inodeNum : U32) (name : List (BitVec 8)) : Bytes :=
  newDirent (put16 dir (last + 4) (BitVec.ofNat 16 (calcLenAt dir last)))
    (last + calcLenAt dir last) inodeNum name

/-- The new entry is written to the directory block and to no other. -/
theorem touchDirectory_run (inodeNum : U32) (room : DirRoom (v.view block) name last) :
    (touchDirectory block name inodeNum).run v =
      some (true, v.put block (enteredDir (v.view block) last inodeNum name)) := by
  have ends := room.entries.ends
  have behind := room.fits
  have scan := dirScan_run (direntLen name.length) room.entries (by omega)
    (show 1024 < 0 + (ext2BlockSize + 1) by simp)
  rw [scanned, if_neg (by omega), if_neg (Nat.not_lt.mpr room.checked)] at scan
  have fits : last + calcLenAt (v.view block) last + Dirent.name + name.length ≤ ext2BlockSize :=
    room.fits
  simp only [touchDirectory, Access.run_bind, scan, bind_some, if_pos fits,
    run_bufferRead, run_bufferStore, run_bufferWrite, Buffered.store_view_self,
    Buffered.store_store, Access.run_pure, Buffered.put, enteredDir]

/-- Where the check finds no room the block stays as it is. -/
theorem touchDirectory_refuses (inodeNum : U32) (entries : LastEntry (v.view block) last 0)
    (header : last + 8 ≤ 1024)
    (loose : recLenAt (v.view block) last ≠ calcLenAt (v.view block) last)
    (full : 1024 < last + direntLen name.length) :
    (touchDirectory block name inodeNum).run v = some (false, v) := by
  have scan := dirScan_run (direntLen name.length) entries header
    (show 1024 < 0 + (ext2BlockSize + 1) by simp)
  rw [scanned, if_neg loose, if_pos full] at scan
  simp only [touchDirectory, Access.run_bind, scan, bind_some, Access.run_pure]

/-- The new entry does not fit behind the last one, or there is nothing left of it. -/
theorem touchDirectory_overruns (inodeNum : U32) (entries : LastEntry (v.view block) last 0)
    (header : last + 8 ≤ 1024)
    (behind : recLenAt (v.view block) last = calcLenAt (v.view block) last ∨
      last + direntLen name.length ≤ 1024 ∧
        1024 < last + calcLenAt (v.view block) last + 8 + name.length) :
    (touchDirectory block name inodeNum).run v = none := by
  have scan := dirScan_run (direntLen name.length) entries header
    (show 1024 < 0 + (ext2BlockSize + 1) by simp)
  by_cases tight : recLenAt (v.view block) last = calcLenAt (v.view block) last
  · have outside : ¬1024 + Dirent.name + name.length ≤ ext2BlockSize := by
      simp only [Dirent.name, ext2BlockSize]
      omega
    rw [scanned, if_pos tight] at scan
    simp only [touchDirectory, Access.run_bind, scan, bind_some, if_neg outside, Access.run_stuck]
  · obtain ⟨checked, beyond⟩ := behind.resolve_left tight
    have outside : ¬last + calcLenAt (v.view block) last + Dirent.name + name.length ≤
        ext2BlockSize := Nat.not_le.mpr beyond
    rw [scanned, if_neg tight, if_neg (Nat.not_lt.mpr checked)] at scan
    simp only [touchDirectory, Access.run_bind, scan, bind_some, if_neg outside, Access.run_stuck]

/-- Copying memory onto itself changes nothing. -/
private theorem patch_self (b : Bytes) (count : Nat) : patch b 0 count b = b := by
  funext i
  simp [patch]

/-- The superblock with an inode less. -/
def superCounted (env : Ext2Env) (s : Bytes) : Bytes :=
  put32 (put32 s 16 (get32 s 16 - 1#32)) 48 env.wtime

/-- The group descriptor with an inode less. -/
def groupCounted (bg : Bytes) : Bytes := put16 bg 14 (get16 bg 14 - 1#16)

theorem superCounted_other (env : Ext2Env) (s : Bytes) {i : Nat}
    (apart : i < 16 ∨ 20 ≤ i ∧ i < 48 ∨ 52 ≤ i) : superCounted env s i = s i := by
  show patch _ 48 4 _ i = _
  rw [patch_outside (by omega)]
  exact patch_outside (by omega)

theorem groupCounted_other (bg : Bytes) {i : Nat} (apart : i < 14 ∨ 16 ≤ i) :
    groupCounted bg i = bg i :=
  patch_outside (by omega)

/-- The counters are in superblock and group descriptor, which are both written. -/
theorem countInode_run (env : Ext2Env) (magic : get16 (v.view 1#32) 56 = ext2Magic) :
    (countInode env 0).run v = some ((),
      (v.put 1#32 (superCounted env (v.view 1#32))).put 2#32 (groupCounted (v.view 2#32))) := by
  generalize isSuper : superCounted env (v.view 1#32) = super
  generalize isGroup : groupCounted (v.view 2#32) = group
  have written : (ext2SuperblockRw super).run (v.store 1#32 super) =
      some ((), v.put 1#32 super) := by
    have isMagic : get16 super Superblock.magic = ext2Magic := by
      rw [← magic, ← isSuper]
      exact (get16_patch_apart (by simp)).trans (get16_patch_apart (by simp))
    simp only [ext2SuperblockRw, Access.run_bind, run_bufferRead, bind_some,
      if_pos isMagic, run_bufferStore, run_bufferWrite, ext2Super, Buffered.store_view_self,
      patch_self, Buffered.store_store, Buffered.put]
  have other : (2#32 : U32) ≠ 1#32 := by decide
  have same : (v.put 1#32 super).view 2#32 = v.view 2#32 := Buffered.put_view_other other
  have entry : (fun j => group (groupDescSize * 0 + j)) = group := by
    funext j
    simp
  have described : (ext2BlockdescRw fun j => group (groupDescSize * 0 + j)).run
      ((v.put 1#32 super).store 2#32 group) = some ((), (v.put 1#32 super).put 2#32 group) := by
    simp only [ext2BlockdescRw, Access.run_bind, run_bufferRead, bind_some,
      run_bufferStore, run_bufferWrite]
    simp [patch_self, Buffered.put]
  simp only [countInode, Access.run_bind, run_bufferRead, run_bufferStore, bind_some,
    ext2Super, Buffered.store_view_self]
  show ((ext2SuperblockRw (superCounted env (v.view 1#32))).run
    (v.store 1#32 (superCounted env (v.view 1#32)))).bind _ = _
  rw [isSuper, written]
  show (ext2BlockdescRw fun j => groupCounted (v.view 2#32) (groupDescSize * 0 + j)).run
    ((v.put 1#32 super).store 2#32 (groupCounted (v.view 2#32))) = _
  rw [isGroup]
  exact described

/-! ### Any directory block

Whatever the block holds, its section of the code reads and writes that block only. -/

/-- The scan gives up and leaves everything, or has at most cut an entry. -/
theorem dirScan_frame {v' : Buffered U32 Bytes} {length sum : Nat} {result : Option Nat}
    (ran : (dirScan block length fuel d sum).run v = some (result, v')) :
    result = none ∧ v' = v ∨
      result ≠ none ∧ v'.disk = v.disk ∧ ∀ y, y ≠ block → v'.view y = v.view y := by
  induction fuel generalizing d sum with
  | zero => cases ran
  | succ fuel ih =>
    simp only [dirScan, Access.run_bind, run_bufferRead, bind_some] at ran
    split at ran
    · split at ran
      · split at ran
        · cases ran
          exact Or.inl ⟨rfl, rfl⟩
        · cases ran
          exact Or.inr ⟨some_ne_none _, rfl,
            fun y other => Buffered.store_view_other other⟩
      · split at ran
        · exact ih ran
        · cases ran
          exact Or.inr ⟨some_ne_none _, rfl, fun _ _ => rfl⟩
    · cases ran

/-- A refusal leaves the volume as it is; otherwise the directory block is written. -/
theorem touchDirectory_frame {v' : Buffered U32 Bytes} {inodeNum : U32} {entered : Bool}
    (ran : (touchDirectory block name inodeNum).run v = some (entered, v')) :
    entered = false ∧ v' = v ∨
      entered = true ∧ ∀ y, y ≠ block → v'.view y = v.view y ∧ v'.disk y = v.disk y := by
  simp only [touchDirectory, Access.run_bind] at ran
  obtain ⟨⟨result, v₁⟩, scan, ran⟩ := bind_eq_some_iff.mp ran
  rcases dirScan_frame scan with ⟨rfl, same⟩ | ⟨found, sameDisk, sameView⟩
  · cases ran
    exact Or.inl ⟨rfl, same⟩
  · obtain ⟨d, rfl⟩ := ne_none_iff_exists'.mp found
    dsimp only at ran
    split at ran
    · cases ran
      refine Or.inr ⟨rfl, fun y other => ?_⟩
      rw [← sameView y other, ← sameDisk]
      exact ⟨Buffered.put_view_other other, Buffered.put_disk_other other⟩
    · cases ran

end Crunchy
