/-
Module: Crunchy.Proofs.Ext2Dirents
Purpose: What `ext2_touch` leaves of the root directory. The new entry goes behind the last one;
  where it goes and the check for room are about two different places.
Trusted boundary: none
Main exports: DirEntries, DirEntries.entered, DirectoryKept, directory_kept_iff
-/
import Crunchy.Proofs.Ext2Frame

namespace Crunchy

open Lib BitVec Option List Buffered

/-! ### Reading a directory block -/

/-- An entry as far as a directory goes: the inode and the name. -/
abbrev DirEntry := U32 × List (BitVec 8)

/-- The length of the name of the entry at `d`. -/
def nameLenAt (dir : Bytes) (d : Nat) : Nat := (dir (d + 6)).toNat

/-- The entry at `d`. -/
def entryAt (dir : Bytes) (d : Nat) : DirEntry :=
  (get32 dir d, (List.range (nameLenAt dir d)).map fun j => dir (d + 8 + j))

/-- The record of the entry at `d` is aligned, holds its name and ends in the block. -/
def EntryFits (dir : Bytes) (d : Nat) : Prop :=
  recLenAt dir d % 4 = 0 ∧ 8 + nameLenAt dir d ≤ recLenAt dir d ∧ d + recLenAt dir d ≤ 1024

instance (dir : Bytes) (d : Nat) : Decidable (EntryFits dir d) :=
  inferInstanceAs (Decidable (_ ∧ _))

/-- The entries from `d` on, along the record lengths up to the end of the block. -/
def dirEntriesFrom (dir : Bytes) : (fuel d : Nat) → Option (List DirEntry)
  | 0, _ => none
  | fuel + 1, d =>
    if d = 1024 then some []
    else if EntryFits dir d then
      (dirEntriesFrom dir fuel (d + recLenAt dir d)).map (entryAt dir d :: ·)
    else none

/-- The entries of a directory block; `none` for a block that is not well formed. -/
def dirEntries (dir : Bytes) : Option (List DirEntry) := dirEntriesFrom dir 1025 0

/-- The same as a relation. -/
inductive DirEntries (dir : Bytes) : Nat → List DirEntry → Prop
  | ends : DirEntries dir 1024 []
  | entry {d : Nat} {entries : List DirEntry} (fits : EntryFits dir d)
      (rest : DirEntries dir (d + recLenAt dir d) entries) :
      DirEntries dir d (entryAt dir d :: entries)

variable {dir : Bytes} {d last fuel : Nat} {entries : List DirEntry} {inodeNum : U32}
  {name : List (BitVec 8)}

theorem DirEntries.of_parsed (parsed : dirEntriesFrom dir fuel d = some entries) :
    DirEntries dir d entries := by
  induction fuel generalizing d entries with
  | zero => cases parsed
  | succ fuel ih =>
    rw [dirEntriesFrom] at parsed
    split at parsed
    · rename_i atEnd
      cases parsed
      rw [atEnd]
      exact .ends
    · split at parsed
      · rename_i fits
        obtain ⟨rest, parsedRest, isCons⟩ := map_eq_some_iff.mp parsed
        cases isCons
        exact .entry fits (ih parsedRest)
      · cases parsed

theorem DirEntries.parse (holds : DirEntries dir d entries) (fuelled : 1024 < d + fuel) :
    dirEntriesFrom dir fuel d = some entries := by
  induction holds generalizing fuel with
  | ends =>
    cases fuel with
    | zero => omega
    | succ fuel => rw [dirEntriesFrom, if_pos rfl]
  | @entry d entries fits rest ih =>
    obtain ⟨aligned, holdsName, inBlock⟩ := fits
    cases fuel with
    | zero => omega
    | succ fuel =>
      rw [dirEntriesFrom, if_neg (by omega), if_pos ⟨aligned, holdsName, inBlock⟩,
        ih (by omega), map_some]

theorem dirEntries_eq_some_iff : dirEntries dir = some entries ↔ DirEntries dir 0 entries :=
  ⟨.of_parsed, fun holds => holds.parse (by decide)⟩

/-- Behind the end of the block there are no entries. -/
theorem DirEntries.eq_nil (holds : DirEntries dir 1024 entries) : entries = [] := by
  cases holds with
  | ends => rfl
  | entry fits rest =>
    obtain ⟨_, holdsName, inBlock⟩ := fits
    omega

/-- And that entry's record is in order. -/
theorem DirEntries.last_fits (holds : DirEntries dir d entries) (start : d < 1024)
    (lastAt : LastEntry dir last d) : EntryFits dir last := by
  induction lastAt generalizing entries with
  | here ends =>
    cases holds with
    | ends => omega
    | entry fits rest => exact fits
  | next size more rest ih =>
    cases holds with
    | ends => omega
    | entry fits later => exact ih later more

/-! ### The new entry -/

/-- The size computed for an entry has room for its name. -/
theorem calcLenAt_ge (dir : Bytes) (d : Nat) :
    8 + nameLenAt dir d ≤ calcLenAt dir d ∧ calcLenAt dir d % 4 = 0 ∧ calcLenAt dir d ≤ 520 := by
  simp only [calcLenAt, nameLenAt, direntLen, direntSize]
  omega

/-- An entry is its own bytes, the record length apart. -/
theorem entryAt_congr (dir dir' : Bytes) (d : Nat)
    (same : ∀ i, d ≤ i → i < d + 8 + nameLenAt dir d → i < d + 4 ∨ d + 6 ≤ i → dir' i = dir i) :
    nameLenAt dir' d = nameLenAt dir d ∧ entryAt dir' d = entryAt dir d := by
  have sameLen : nameLenAt dir' d = nameLenAt dir d := by
    rw [nameLenAt, nameLenAt, same (d + 6) (by omega) (by omega) (by omega)]
  refine ⟨sameLen, ?_⟩
  rw [entryAt, entryAt, sameLen]
  refine Prod.ext (get32_congr fun i start stop => same i start (by omega) (by omega)) ?_
  refine map_congr_left fun j member => same _ (by omega) ?_ (by omega)
  have below := mem_range.mp member
  omega

/-- Outside of the last entry's record length and of the new entry nothing changes. -/
theorem enteredDir_other {i : Nat}
    (outside : i < last + 4 ∨ last + 6 ≤ i ∧ i < last + calcLenAt dir last) :
    enteredDir dir last inodeNum name i = dir i := by
  have size := (calcLenAt_ge dir last).1
  simp only [enteredDir, newDirent, Dirent.recLen, Dirent.inode, Dirent.fileType, Dirent.nameLen,
    Dirent.name, put16, put32, put8]
  rw [patch_outside (by omega), patch_outside (by omega), patch_outside (by omega),
    patch_outside (by omega), patch_outside (by omega), patch_outside (by omega)]

/-- The last entry is cut to its computed size. -/
theorem recLenAt_last (dir : Bytes) (last : Nat) (inodeNum : U32) (name : List (BitVec 8)) :
    recLenAt (enteredDir dir last inodeNum name) last = calcLenAt dir last := by
  obtain ⟨size, _, small⟩ := calcLenAt_ge dir last
  simp only [recLenAt, enteredDir, newDirent, Dirent.recLen, Dirent.inode, Dirent.fileType,
    Dirent.nameLen, Dirent.name, put32, put8]
  rw [get16_patch_apart (by omega), get16_patch_apart (by omega), get16_patch_apart (by omega),
    get16_patch_apart (by omega), put16, get16_patch_apart (by omega), get16_put16, toNat_ofNat]
  omega

/-- The new entry itself, if it ends in the block. -/
theorem enteredDir_new (inodeNum : U32) (short : name.length ≤ 255)
    (fits : last + calcLenAt dir last + 8 + name.length ≤ 1024) :
    recLenAt (enteredDir dir last inodeNum name) (last + calcLenAt dir last) =
        1024 - (last + calcLenAt dir last) ∧
      nameLenAt (enteredDir dir last inodeNum name) (last + calcLenAt dir last) = name.length ∧
      entryAt (enteredDir dir last inodeNum name) (last + calcLenAt dir last) =
        (inodeNum, name) := by
  have recLen : recLenAt (enteredDir dir last inodeNum name) (last + calcLenAt dir last) =
      1024 - (last + calcLenAt dir last) := by
    simp only [recLenAt, enteredDir, newDirent, Dirent.recLen, Dirent.inode, Dirent.fileType,
      Dirent.nameLen, Dirent.name, put32, put8, ext2BlockSize]
    rw [get16_patch_apart (by omega), get16_patch_apart (by omega), get16_patch_apart (by omega),
      get16_patch_apart (by omega), get16_put16, BitVec.toNat_ofNat]
    omega
  have nameLen : nameLenAt (enteredDir dir last inodeNum name) (last + calcLenAt dir last) =
      name.length := by
    simp only [nameLenAt, enteredDir, newDirent, Dirent.recLen, Dirent.inode, Dirent.fileType,
      Dirent.nameLen, Dirent.name, put8]
    rw [patch_outside (by omega), patch_inside (by omega) (by omega), BitVec.toNat_ofNat]
    omega
  have isInode : get32 (enteredDir dir last inodeNum name) (last + calcLenAt dir last) =
      inodeNum := by
    simp only [enteredDir, newDirent, Dirent.recLen, Dirent.inode, Dirent.fileType,
      Dirent.nameLen, Dirent.name, put8, Nat.add_zero]
    rw [get32_patch_apart (by omega), get32_patch_apart (by omega), get32_patch_apart (by omega),
      get32_put32]
  refine ⟨recLen, nameLen, ?_⟩
  rw [entryAt, nameLen, isInode]
  refine Prod.ext rfl (List.ext_getElem (by simp) fun j _ inName => ?_)
  have below : j < name.length := inName
  rw [List.getElem_map, List.getElem_range]
  simp only [enteredDir, newDirent, Dirent.name]
  rw [patch_inside (by omega) (by omega), Nat.add_sub_cancel_left, List.getD_eq_getElem?_getD,
    List.getElem?_eq_getElem below]
  rfl

/-- With room behind the last entry the block stays well formed, with one entry more. -/
theorem DirEntries.entered (holds : DirEntries dir d entries) (start : d < 1024)
    (lastAt : LastEntry dir last d) (short : name.length ≤ 255)
    (fits : last + calcLenAt dir last + 8 + name.length ≤ 1024) :
    DirEntries (enteredDir dir last inodeNum name) d (entries ++ [(inodeNum, name)]) := by
  obtain ⟨size, calcAligned, _⟩ := calcLenAt_ge dir last
  obtain ⟨aligned, holdsName, _⟩ := holds.last_fits start lastAt
  have ends := lastAt.ends
  obtain ⟨newLen, newName, newEntry⟩ := enteredDir_new inodeNum short fits
  obtain ⟨lastName, lastSame⟩ := entryAt_congr dir (enteredDir dir last inodeNum name) last
    fun i _ stop apart => enteredDir_other (by omega)
  induction lastAt generalizing entries with
  | here =>
    cases holds with
    | ends => omega
    | entry _ rest =>
      rw [ends] at rest
      rw [rest.eq_nil, ← lastSame]
      refine .entry ?_ ?_
      · rw [EntryFits, recLenAt_last, lastName]
        omega
      · show DirEntries _ _ [(inodeNum, name)]
        rw [recLenAt_last, ← newEntry]
        refine .entry ?_ ?_
        · rw [EntryFits, newLen, newName]
          omega
        · rw [newLen, Nat.add_sub_cancel' (by omega)]
          exact .ends
  | @next d size more rest ih =>
    cases holds with
    | ends => omega
    | entry fitsHere later =>
      -- all of this entry lies before the last one
      have before := rest.le
      have holdsHere := fitsHere.2.1
      obtain ⟨sameName, same⟩ := entryAt_congr dir (enteredDir dir last inodeNum name) d
        fun i _ stop _ => enteredDir_other (by omega)
      have sameLen : recLenAt (enteredDir dir last inodeNum name) d = recLenAt dir d := by
        rw [recLenAt, recLenAt, get16_congr fun i _ stop => enteredDir_other (by omega)]
      rw [List.cons_append, ← same]
      refine .entry ?_ ?_
      · rw [EntryFits, sameLen, sameName]
        exact fitsHere
      · rw [sameLen]
        exact ih later more

/-! ### The root directory after a call -/

/-- `ext2_touch` returns, and either refuses and leaves the root directory's block as
it was, or leaves it well formed with one entry more. -/
def DirectoryKept (env : Ext2Env) (v : Buffered U32 Bytes) (name : List (BitVec 8)) (data : Bytes)
    (n : Nat) : Prop :=
  ∃ ino v', (ext2Touch env name data n).run v = some (ino, v') ∧
    v'.view (rootBlockOf v) = v'.disk (rootBlockOf v) ∧
    (ino = 0#32 ∧ v'.disk (rootBlockOf v) = v.disk (rootBlockOf v) ∨
      ∃ entries, dirEntries (v.disk (rootBlockOf v)) = some entries ∧
        dirEntries (v'.disk (rootBlockOf v)) = some (entries ++ [(ino, name)]))

/-- There is a gap behind the last entry's computed size, and it is large enough
wherever the check does not refuse. -/
def GapFits (dir : Bytes) (last : Nat) (name : List (BitVec 8)) : Prop :=
  recLenAt dir last ≠ calcLenAt dir last ∧
    (1024 < last + direntLen name.length ∨
      last + calcLenAt dir last + 8 + name.length ≤ 1024)

variable {v u : Buffered U32 Bytes} {env : Ext2Env} {index : Nat}

/-- The directory section on a well-formed block without such a gap: the new entry is
written past the end of the block. -/
theorem SameLayout.touchEnter_overruns (same : SameLayout v u) (image : Ext2Image v)
    (root : get32 (u.view (inodeTableOf v)) 168 = rootBlockOf v)
    (lastAt : LastEntry (u.view (rootBlockOf v)) last 0) (header : last + 8 ≤ 1024)
    (noGap : ¬ GapFits (u.view (rootBlockOf v)) last name) :
    (touchEnter env name inodeNum).run u = none := by
  have behind : recLenAt (u.view (rootBlockOf v)) last = calcLenAt (u.view (rootBlockOf v)) last ∨
      last + direntLen name.length ≤ 1024 ∧
        1024 < last + calcLenAt (u.view (rootBlockOf v)) last + 8 + name.length := by
    rw [GapFits] at noGap
    omega
  rw [same.touchEnter_eq env inodeNum image root,
    touchDirectory_overruns inodeNum lastAt header behind, bind_none]

theorem SameLayout.touchEnter_refuses (same : SameLayout v u) (image : Ext2Image v)
    (root : get32 (u.view (inodeTableOf v)) 168 = rootBlockOf v)
    (lastAt : LastEntry (u.view (rootBlockOf v)) last 0) (header : last + 8 ≤ 1024)
    (loose : recLenAt (u.view (rootBlockOf v)) last ≠ calcLenAt (u.view (rootBlockOf v)) last)
    (full : 1024 < last + direntLen name.length) :
    (touchEnter env name inodeNum).run u = some (0#32, u) := by
  rw [same.touchEnter_eq env inodeNum image root,
    touchDirectory_refuses inodeNum lastAt header loose full, bind_some]
  rfl

/-- A call that keeps the directory has found a gap. -/
theorem gapFits_of_directoryKept {data : Bytes} {n : Nat} (image : Ext2Image v)
    (space : HasSpace v n) (zero : env.ZeroInode)
    (wellFormed : dirEntries (v.view (rootBlockOf v)) = some entries)
    (lastAt : LastEntry (v.view (rootBlockOf v)) last 0) (few : blockCount n ≤ 255)
    (kept : DirectoryKept env v name data n) : GapFits (v.view (rootBlockOf v)) last name := by
  obtain ⟨_, holdsName, inBlock⟩ :=
    (dirEntries_eq_some_iff.mp wellFormed).last_fits (by decide) lastAt
  obtain ⟨index, w, v', indirect, i, used, looped⟩ := image.looped data space zero (by omega)
  obtain ⟨u, ran, same, root, view, _⟩ := looped.entered image few
  obtain ⟨ino, after, returned, _⟩ := kept
  by_contra noGap
  rw [← view] at noGap lastAt
  rw [ran, same.touchEnter_overruns image root lastAt (by omega) noGap] at returned
  cases returned

/-- With a gap the call keeps the directory. -/
theorem directoryKept_of_gapFits (data : Bytes) {n : Nat} (image : Ext2Image v)
    (space : HasSpace v n) (zero : env.ZeroInode)
    (wellFormed : dirEntries (v.view (rootBlockOf v)) = some entries)
    (lastAt : LastEntry (v.view (rootBlockOf v)) last 0) (short : name.length ≤ 255)
    (few : blockCount n ≤ 255) (gap : GapFits (v.view (rootBlockOf v)) last name) :
    DirectoryKept env v name data n := by
  have holds := dirEntries_eq_some_iff.mp wellFormed
  obtain ⟨_, holdsName, inBlock⟩ := holds.last_fits (by decide) lastAt
  obtain ⟨index, w, v', indirect, i, used, looped⟩ := image.looped data space zero (by omega)
  obtain ⟨u, ran, same, root, view, disk⟩ := looped.entered image few
  obtain ⟨loose, room⟩ := gap
  by_cases full : 1024 < last + direntLen name.length
  · rw [← view] at loose lastAt
    refine ⟨0#32, u, ?_, ?_, Or.inl ⟨rfl, disk⟩⟩
    · rw [ran, same.touchEnter_refuses image root lastAt (by omega) loose full]
    · rw [view, disk, image.coherent]
  · have fits := room.resolve_left full
    have dirRoom : DirRoom (u.view (rootBlockOf v)) name last := by
      rw [view]
      exact ⟨lastAt, fits, Nat.not_lt.mp full⟩
    obtain ⟨dir, super, group, isDir, entered, _⟩ :=
      same.touchEnter_run env image looped.inGroup root dirRoom
    obtain ⟨_, notSuper, notGroup, _, _⟩ := image.root_apart
    refine ⟨_, _, (ran name).trans entered, ?_, Or.inr ⟨entries, ?_, ?_⟩⟩
    · rw [put_view_other notGroup, put_view_other notSuper, put_view_self, put_disk_other notGroup,
        put_disk_other notSuper, put_disk_self]
    · rw [← image.coherent]
      exact wellFormed
    · rw [put_disk_other notGroup, put_disk_other notSuper, put_disk_self, isDir, view]
      exact dirEntries_eq_some_iff.mpr (holds.entered (by decide) lastAt short fits)

/-- The root directory stays well formed exactly when the last entry's record does not
have just the size the code computes for it, the new entry fits behind that size
wherever the check for room passes, and the file has at most 255 blocks, for which
the call gets that far. -/
theorem directory_kept_iff (env : Ext2Env) (v : Buffered U32 Bytes) (name : List (BitVec 8))
    (data : Bytes) (n : Nat) (entries : List DirEntry) (last : Nat) (image : Ext2Image v)
    (space : HasSpace v n) (zero : env.ZeroInode)
    (wellFormed : dirEntries (v.view (rootBlockOf v)) = some entries)
    (lastAt : LastEntry (v.view (rootBlockOf v)) last 0) (short : name.length ≤ 255)
    (sized : n < 2 ^ 32) :
    DirectoryKept env v name data n ↔
      n ≤ 255 * 1024 ∧ GapFits (v.view (rootBlockOf v)) last name := by
  rw [← blockCount_le_iff]
  constructor
  · intro kept
    have few : blockCount n ≤ 255 := by
      by_contra many
      obtain ⟨ino, v', ran, _⟩ := kept
      rw [ext2Touch_overrun name data v zero (Nat.not_le.mp many) sized] at ran
      cases ran
    exact ⟨few, gapFits_of_directoryKept image space zero wellFormed lastAt few kept⟩
  · rintro ⟨few, gap⟩
    exact directoryKept_of_gapFits data image space zero wellFormed lastAt short few gap

/-- A file in the small volume, whose one entry leaves a gap. -/
theorem small_directory_kept : DirectoryKept clearEnv smallVolume [0x61#8] (fun _ => 7#8) 1 := by
  have room : HasRoom smallVolume [0x61#8] 1 := smallVolume_room (by decide) (by decide)
  refine (directory_kept_iff clearEnv smallVolume [0x61#8] (fun _ => 7#8) 1 [(0#32, [0#8])] 0
    smallVolume_image room.space clearEnv_zero ?_ ?_ (by decide) (by decide)).mpr
      ⟨by decide, ?_, Or.inr ?_⟩
  · decide +kernel
  · exact .here (by decide +kernel)
  · decide +kernel
  · decide +kernel

/-! ### Volumes of one shape -/

/-- The two volumes differ in counters and files only, as far as well-formedness and
free space go. -/
structure SameShape (v u : Buffered U32 Bytes) : Prop where
  super : ∀ j, 20 ≤ j → u.view 1#32 j = v.view 1#32 j
  group : ∀ j < 12, u.view 2#32 j = v.view 2#32 j
  blocks : u.view (blockBitmapOf v) = v.view (blockBitmapOf v)
  inodes : u.view (inodeBitmapOf v) = v.view (inodeBitmapOf v)
  table : u.view (inodeTableOf v) = v.view (inodeTableOf v)

namespace SameShape

theorem blockBitmap (same : SameShape v u) : blockBitmapOf u = blockBitmapOf v :=
  get32_congr fun j _ stop => same.group j (by omega)

theorem inodeBitmap (same : SameShape v u) : inodeBitmapOf u = inodeBitmapOf v :=
  get32_congr fun j _ stop => same.group j (by omega)

theorem inodeTable (same : SameShape v u) : inodeTableOf u = inodeTableOf v :=
  get32_congr fun j _ stop => same.group j (by omega)

theorem inodeCount (same : SameShape v u) : inodeCountOf u = inodeCountOf v :=
  congrArg BitVec.toNat (get32_congr fun j start _ => same.super j (by omega))

theorem rootBlock (same : SameShape v u) : rootBlockOf u = rootBlockOf v := by
  rw [rootBlockOf, same.inodeTable, same.table, rootBlockOf]

theorem reserved (same : SameShape v u) : reservedBlocks u = reservedBlocks v := by
  rw [reservedBlocks, tableBlocks, same.blockBitmap, same.inodeBitmap, same.rootBlock,
    same.inodeTable, same.inodeCount, reservedBlocks, tableBlocks]

theorem isFree (same : SameShape v u) {x : U32} : IsFree u x ↔ IsFree v x := by
  rw [IsFree, same.blockBitmap, same.blocks, IsFree]

theorem image (same : SameShape v u) (image : Ext2Image v) (coherent : u.view = u.disk) :
    Ext2Image u where
  magic := (get16_congr fun j start _ => same.super j (by omega)).trans image.magic
  rootInode := by
    rw [same.inodeCount]
    exact image.rootInode
  inodes := by
    rw [same.inodeCount]
    exact image.inodes
  distinct := by
    rw [same.reserved]
    exact image.distinct
  inUse x reserved free := by
    rw [same.reserved] at reserved
    exact image.inUse x reserved (same.isFree.mp free)
  rootInUse := by
    rw [same.inodeBitmap, same.inodes]
    exact image.rootInUse
  coherent := coherent

theorem space {n : Nat} (same : SameShape v u) (space : HasSpace v n) : HasSpace u n where
  blocks := by
    rw [same.blockBitmap, same.blocks]
    exact space.blocks
  inode := by
    rw [same.inodeBitmap, same.inodes, same.inodeCount]
    exact space.inode

end SameShape

theorem Ext2Image.table_apart (image : Ext2Image v) :
    inodeTableOf v ≠ 1#32 ∧ inodeTableOf v ≠ 2#32 ∧ inodeTableOf v ≠ rootBlockOf v := by
  have table : slotBlock (inodeTableOf v) 1 = inodeTableOf v := by simp [slotBlock]
  obtain ⟨_, notSuper, notGroup, _, _, notRoot⟩ := image.slot_apart image.rootInode
  rw [table] at notSuper notGroup notRoot
  exact ⟨notSuper, notGroup, notRoot⟩

/-! ### A crowded directory -/

/-- The volume with another block for its root directory. -/
def setRoot (v : Buffered U32 Bytes) (dir : Bytes) : Buffered U32 Bytes :=
  v.put (rootBlockOf v) dir

theorem setRoot_view (v : Buffered U32 Bytes) (dir : Bytes) {x : U32} (other : x ≠ rootBlockOf v) :
    (setRoot v dir).view x = v.view x :=
  put_view_other other

/-- What the directory holds has no part in the volume being well formed. -/
theorem Ext2Image.setRoot (image : Ext2Image v) (dir : Bytes) :
    Ext2Image (setRoot v dir) ∧ rootBlockOf (Crunchy.setRoot v dir) = rootBlockOf v ∧
      ∀ {n}, HasSpace v n → HasSpace (Crunchy.setRoot v dir) n := by
  obtain ⟨_, notSuper, notGroup, notBitmap, notInodes⟩ := image.root_apart
  have same : SameShape v (Crunchy.setRoot v dir) := by
    constructor
    · intro j _
      rw [setRoot_view v dir notSuper.symm]
    · intro j _
      rw [setRoot_view v dir notGroup.symm]
    · exact setRoot_view v dir notBitmap.symm
    · exact setRoot_view v dir notInodes.symm
    · exact setRoot_view v dir image.table_apart.2.2
  refine ⟨same.image image ?_, same.rootBlock, same.space⟩
  funext x
  by_cases isRoot : x = rootBlockOf v
  · rw [isRoot, Crunchy.setRoot, put_view_self, put_disk_self]
  · rw [Crunchy.setRoot, put_view_other isRoot, put_disk_other isRoot, image.coherent]

/-- A directory block with two entries, names of one byte each; the record of the
second has just the size that is computed for such a name. -/
def tightDir : Bytes := fun j =>
  if j = 4 then 0xF4#8 else if j = 5 then 2#8 else if j = 6 then 1#8
  else if j = 760 then 0x0C#8 else if j = 761 then 1#8 else if j = 762 then 1#8 else 0#8

/-- With that block there is nothing between the last entry and the end of the
block, and the new entry is written behind the block. -/
theorem new_entry_behind_block :
    ¬ ∀ (env : Ext2Env) (v : Buffered U32 Bytes) (name : List (BitVec 8)) (data : Bytes) (n : Nat),
      Ext2Image v → HasSpace v n → env.ZeroInode →
      (∃ entries, dirEntries (v.view (rootBlockOf v)) = some entries) → 1 ≤ name.length →
      name.length ≤ 255 → DirectoryKept env v name data n := by
  intro always
  obtain ⟨image, sameRoot, space⟩ := smallVolume_image.setRoot tightDir
  have room : HasRoom smallVolume [0x61#8] 1 := smallVolume_room (by decide) (by decide)
  have isTight : (setRoot smallVolume tightDir).view (rootBlockOf (setRoot smallVolume tightDir)) =
      tightDir := by
    exact put_view_self
  have wellFormed : dirEntries tightDir = some [(0#32, [0#8]), (0#32, [0#8])] := by decide +kernel
  have lastAt : LastEntry tightDir 756 0 := by
    refine .next (by decide +kernel) (by decide +kernel) ?_
    have second : 0 + recLenAt tightDir 0 = 756 := by decide +kernel
    exact .here (by decide +kernel)
  have kept := always clearEnv _ [0x61#8] (fun _ => 7#8) 1 image (space room.space) clearEnv_zero
    ⟨_, wellFormed⟩ (by decide) (by decide)
  have gap := gapFits_of_directoryKept image (space room.space) clearEnv_zero wellFormed lastAt
    (by decide) kept
  exact gap.1 (by decide +kernel)

end Crunchy
