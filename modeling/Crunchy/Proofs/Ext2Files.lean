/-
Module: Crunchy.Proofs.Ext2Files
Purpose: The loop of `ext2_touch` over the blocks of a file: what it has stored
  after each block is what the ext2 layout reads back.
Trusted boundary: none
Main exports: filePointer, FileHolds, neededBlocks, Pointers, Filled, touchBlock_run,
  touchLoop_run
-/
import Crunchy.Proofs.Ext2Blocks

namespace Crunchy

open Lib List

/-! ### Files as ext2 lays them out -/

/-- The block with block `j` of the file of inode `i`: the inode names the first
twelve, its thirteenth pointer leads to the block that names the others. -/
def filePointer (v : Buffered U32 Bytes) (i : Bytes) (j : Nat) : U32 :=
  if j < 12 then get32 i (40 + 4 * j) else get32 (v.view (get32 i 88)) ((j - 12) * 4)

/-- The first `n` bytes of the file of inode `i` are those of `data`, as far as they
are in its first `q` blocks. -/
def FileHolds (v : Buffered U32 Bytes) (i data : Bytes) (n q : Nat) : Prop :=
  ∀ j < q, ∀ k < 1024, j * 1024 + k < n → v.view (filePointer v i j) k = data (j * 1024 + k)

/-- The number of blocks for `n` bytes. -/
def blockCount (n : Nat) : Nat := (n + 1023) / 1024

/-- The blocks that a file of `q` blocks takes, its indirect block included. -/
def neededBlocks (q : Nat) : Nat := if 12 < q then q + 1 else q

variable {w v v' : Buffered U32 Bytes} {used : List U32} {env : Ext2Env} {x indirect : U32}
  {i i' data : Bytes} {n q j sz : Nat}

theorem lt_blockCount_iff : q < blockCount n ↔ q * 1024 < n := by
  unfold blockCount
  omega

theorem blockCount_le_iff : blockCount n ≤ q ↔ n ≤ q * 1024 := by
  rw [← Nat.not_lt, lt_blockCount_iff, Nat.not_lt]

theorem neededBlocks_mono {p : Nat} (fewer : p ≤ q) : neededBlocks p ≤ neededBlocks q := by
  unfold neededBlocks
  split <;> split <;> omega

theorem filePointer_direct (few : j < 12) : filePointer v i j = get32 i (40 + 4 * j) :=
  if_pos few

theorem filePointer_indirect (many : 12 ≤ j) :
    filePointer v i j = get32 (v.view (get32 i 88)) ((j - 12) * 4) :=
  if_neg (Nat.not_lt.mpr many)

/-- The pointer depends on one word of the inode or of the indirect block. -/
theorem filePointer_congr
    (direct : j < 12 → get32 i' (40 + 4 * j) = get32 i (40 + 4 * j))
    (indirect : 12 ≤ j → get32 (v'.view (get32 i' 88)) ((j - 12) * 4) =
      get32 (v.view (get32 i 88)) ((j - 12) * 4)) :
    filePointer v' i' j = filePointer v i j := by
  by_cases few : j < 12
  · rw [filePointer_direct few, filePointer_direct few, direct few]
  · have many := Nat.not_lt.mp few
    rw [filePointer_indirect many, filePointer_indirect many, indirect many]

theorem filePointer_inode (same : ∀ k ≤ 12, get32 i' (40 + 4 * k) = get32 i (40 + 4 * k)) :
    filePointer v i' j = filePointer v i j := by
  have link : get32 i' 88 = get32 i 88 := same 12 (Nat.le_refl 12)
  apply filePointer_congr
  · intro few
    exact same j (Nat.le_of_lt few)
  · intro _
    rw [link]

/-! ### The pointers in the course of the loop -/

/-- Before block `q` of the file: the pointers to the blocks before it are blocks
that were free, with their indirect block beside them as soon as there is one. -/
structure Pointers (w v : Buffered U32 Bytes) (q : Nat) (indirect : U32) (i : Bytes)
    (used : List U32) : Prop where
  taken : Taken w v used
  length : used.length = neededBlocks q
  mine : ∀ j < q, filePointer v i j ∈ used
  apart : ∀ j < q, filePointer v i j ≠ indirect
  unset : ∀ j, q ≤ j → j ≤ 12 → get32 i (40 + 4 * j) = 0#32
  direct : q ≤ 12 → indirect = 0#32
  link : 12 < q → get32 i 88 = indirect ∧ indirect ∈ used

namespace Pointers

theorem start (w : Buffered U32 Bytes) (unset : ∀ j ≤ 12, get32 i (40 + 4 * j) = 0#32) :
    Pointers w w 0 0#32 i [] where
  taken := Taken.refl w
  length := rfl
  mine := by simp
  apart := by simp
  unset j _ few := unset j few
  direct _ := rfl
  link := by simp

/-- The indirect block is none of the blocks that all files share. -/
theorem indirect_apart (pointers : Pointers w v q indirect i used) (ground : Ground w) :
    indirect ≠ 1#32 ∧ indirect ≠ 2#32 ∧ indirect ≠ blockBitmapOf w := by
  by_cases few : q ≤ 12
  · rw [pointers.direct few]
    exact ⟨by decide, by decide, ground.notBoot.symm⟩
  · have isUsed := (pointers.link (Nat.not_le.mp few)).2
    exact (ground.free indirect (pointers.taken.free indirect isUsed)).2

/-- The pointers stay when the indirect block does. -/
theorem frame (pointers : Pointers w v q indirect i used) (taken : Taken w v' used)
    (same : v'.view indirect = v.view indirect) :
    Pointers w v' q indirect i used ∧ ∀ j < q, filePointer v' i j = filePointer v i j := by
  have pointer : ∀ j < q, filePointer v' i j = filePointer v i j := by
    intro j before
    apply filePointer_congr (fun _ => rfl)
    intro many
    rw [(pointers.link (Nat.lt_of_le_of_lt many before)).1, same]
  refine ⟨?_, pointer⟩
  constructor
  case taken => exact taken
  case length => exact pointers.length
  case mine =>
    intro j before
    rw [pointer j before]
    exact pointers.mine j before
  case apart =>
    intro j before
    rw [pointer j before]
    exact pointers.apart j before
  case unset => exact pointers.unset
  case direct => exact pointers.direct
  case link => exact pointers.link

/-- The pointers stay when the inode's other fields change. -/
theorem inode (pointers : Pointers w v q indirect i used)
    (same : ∀ k ≤ 12, get32 i' (40 + 4 * k) = get32 i (40 + 4 * k)) :
    Pointers w v q indirect i' used where
  taken := pointers.taken
  length := pointers.length
  mine j before := by
    rw [filePointer_inode same]
    exact pointers.mine j before
  apart j before := by
    rw [filePointer_inode same]
    exact pointers.apart j before
  unset j start few := by
    rw [same j few]
    exact pointers.unset j start few
  direct := pointers.direct
  link many := by
    have link : get32 i' 88 = get32 i 88 := same 12 (Nat.le_refl 12)
    rw [link]
    exact pointers.link many

end Pointers

/-- What linking block `q` does: there is a new block for its data, the pointers
before it are the old ones, and no block of the file has changed. -/
structure Linking (w v v' : Buffered U32 Bytes) (q : Nat) (indirect indirect' x : U32)
    (i i' : Bytes) (used used' : List U32) : Prop where
  pointers : Pointers w v' (q + 1) indirect' i' used'
  new : filePointer v' i' q = x
  fresh : x ∉ used
  old : ∀ j < q, filePointer v' i' j = filePointer v i j
  view : ∀ y ∈ used, y ≠ indirect → v'.view y = v.view y
  sectors : get32 i' 28 = get32 i 28

namespace Linking

/-- One more pointer. -/
private theorem extend {indirect' : U32} {used' : List U32}
    (pointers : Pointers w v q indirect i used) (taken : Taken w v' used')
    (length : used'.length = neededBlocks (q + 1)) (more : used ⊆ used')
    (old : ∀ j < q, filePointer v' i' j = filePointer v i j) (new : filePointer v' i' q = x)
    (isUsed : x ∈ used') (other : x ≠ indirect') (others : ∀ y ∈ used, y ≠ indirect → y ≠ indirect')
    (unset : ∀ j, q + 1 ≤ j → j ≤ 12 → get32 i' (40 + 4 * j) = 0#32)
    (direct : q + 1 ≤ 12 → indirect' = 0#32)
    (link : 12 < q + 1 → get32 i' 88 = indirect' ∧ indirect' ∈ used') :
    Pointers w v' (q + 1) indirect' i' used' := by
  refine ⟨taken, length, ?_, ?_, unset, direct, link⟩
  · intro j before
    rcases Nat.lt_succ_iff_lt_or_eq.mp before with earlier | rfl
    · rw [old j earlier]
      exact more (pointers.mine j earlier)
    · rw [new]
      exact isUsed
  · intro j before
    rcases Nat.lt_succ_iff_lt_or_eq.mp before with earlier | rfl
    · rw [old j earlier]
      exact others _ (pointers.mine j earlier) (pointers.apart j earlier)
    · rw [new]
      exact other

/-- The inode has a pointer for the block. -/
private theorem direct (pointers : Pointers w v q indirect i used) (ground : Ground w)
    (few : q < 12) (taken : Taken w v' (x :: used)) (fresh : x ∉ used)
    (view : ∀ y, y ≠ blockBitmapOf w → v'.view y = v.view y) :
    Linking w v v' q indirect indirect x i (put32 i (40 + 4 * q) x) used (x :: used) := by
  have isZero := pointers.direct (Nat.le_of_lt few)
  have notZero : x ≠ indirect := by
    rw [isZero]
    exact (ground.free x (taken.free x mem_cons_self)).1
  have old : ∀ j < q, filePointer v' (put32 i (40 + 4 * q) x) j = filePointer v i j := by
    intro j before
    rw [filePointer_direct (by omega), filePointer_direct (by omega), get32_put32_apart (by omega)]
  have new : filePointer v' (put32 i (40 + 4 * q) x) q = x := by
    rw [filePointer_direct few, get32_put32]
  have length : (x :: used).length = neededBlocks (q + 1) := by
    rw [length_cons, pointers.length, neededBlocks, neededBlocks, if_neg (by omega),
      if_neg (by omega)]
  have unset : ∀ j, q + 1 ≤ j → j ≤ 12 → get32 (put32 i (40 + 4 * q) x) (40 + 4 * j) = 0#32 := by
    intro j start stop
    rw [get32_put32_apart (by omega)]
    exact pointers.unset j (by omega) stop
  constructor
  case pointers =>
    exact extend pointers taken length (subset_cons_self x used) old new mem_cons_self
      notZero (fun _ _ apart => apart) unset (fun _ => isZero) (fun many => by omega)
  case new => exact new
  case fresh => exact fresh
  case old => exact old
  case view =>
    intro y isUsed _
    exact view y (ground.free y (pointers.taken.free y isUsed)).2.2.2
  case sectors => exact get32_put32_apart (by omega)

/-- The first block behind the direct ones brings the indirect block with it. -/
private theorem first {v₂ : Buffered U32 Bytes} (pointers : Pointers w v 12 indirect i used)
    (ground : Ground w) {link : U32} (taken : Taken w v₂ (x :: link :: used))
    (view : ∀ y, y ≠ blockBitmapOf w → v₂.view y = v.view y) :
    Linking w v (v₂.put link (put32 (v₂.view link) 0 x)) 12 indirect link x i (put32 i 88 link)
      used (x :: link :: used) := by
  have distinct := taken.nodup
  rw [nodup_cons, nodup_cons, mem_cons, not_or] at distinct
  obtain ⟨⟨other, fresh⟩, linkFresh, _⟩ := distinct
  have linkUsed : link ∈ x :: link :: used := mem_cons_of_mem x mem_cons_self
  have old : ∀ j < 12, filePointer (v₂.put link (put32 (v₂.view link) 0 x)) (put32 i 88 link) j =
      filePointer v i j := by
    intro j before
    rw [filePointer_direct before, filePointer_direct before, get32_put32_apart (by omega)]
  have new : filePointer (v₂.put link (put32 (v₂.view link) 0 x)) (put32 i 88 link) 12 = x := by
    rw [filePointer_indirect (Nat.le_refl 12), get32_put32, Buffered.put_view_self]
    exact get32_put32 _ 0 x
  have length : (x :: link :: used).length = neededBlocks (12 + 1) := by
    rw [length_cons, length_cons, pointers.length]
    rfl
  have others : ∀ y ∈ used, y ≠ link := by
    rintro y isUsed rfl
    exact linkFresh isUsed
  constructor
  case pointers =>
    exact extend pointers (taken.put ground linkUsed _) length
      (fun y isUsed => mem_cons_of_mem x (mem_cons_of_mem link isUsed)) old new
      mem_cons_self other (fun y isUsed _ => others y isUsed) (fun j start stop => by omega)
      (fun few => by omega) (fun _ => ⟨get32_put32 i 88 link, linkUsed⟩)
  case new => exact new
  case fresh => exact fresh
  case old => exact old
  case view =>
    intro y isUsed _
    rw [Buffered.put_view_other (others y isUsed)]
    exact view y (ground.free y (pointers.taken.free y isUsed)).2.2.2
  case sectors => exact get32_put32_apart (by omega)

/-- The indirect block has an entry for the block. -/
private theorem next {v₁ : Buffered U32 Bytes} (pointers : Pointers w v q indirect i used)
    (ground : Ground w) (many : 12 < q) (taken : Taken w v₁ (x :: used)) (fresh : x ∉ used)
    (view : ∀ y, y ≠ blockBitmapOf w → v₁.view y = v.view y) :
    Linking w v (v₁.put indirect (put32 (v₁.view indirect) ((q - 12) * 4) x)) q indirect indirect
      x i i used (x :: used) := by
  obtain ⟨isLink, linkUsed⟩ := pointers.link many
  have same : v₁.view indirect = v.view indirect :=
    view indirect (pointers.indirect_apart ground).2.2
  have other : x ≠ indirect := by
    rintro rfl
    exact fresh linkUsed
  have old : ∀ j < q,
      filePointer (v₁.put indirect (put32 (v₁.view indirect) ((q - 12) * 4) x)) i j =
        filePointer v i j := by
    intro j before
    apply filePointer_congr (fun _ => rfl)
    intro _
    rw [isLink, Buffered.put_view_self, get32_put32_apart (by omega), same]
  have new : filePointer (v₁.put indirect (put32 (v₁.view indirect) ((q - 12) * 4) x)) i q = x := by
    rw [filePointer_indirect (Nat.le_of_lt many), isLink, Buffered.put_view_self, get32_put32]
  have length : (x :: used).length = neededBlocks (q + 1) := by
    rw [length_cons, pointers.length, neededBlocks, neededBlocks, if_pos many, if_pos (by omega)]
  constructor
  case pointers =>
    exact extend pointers (taken.put ground (mem_cons_of_mem x linkUsed) _) length
      (subset_cons_self x used) old new mem_cons_self other (fun _ _ apart => apart)
      (fun j start stop => by omega) (fun few => by omega)
      (fun _ => ⟨isLink, mem_cons_of_mem x linkUsed⟩)
  case new => exact new
  case fresh => exact fresh
  case old => exact old
  case view =>
    intro y isUsed notLink
    rw [Buffered.put_view_other notLink]
    exact view y (ground.free y (pointers.taken.free y isUsed)).2.2.2
  case sectors => rfl

end Linking

/-- Linking one more block, as long as there are blocks and entries. -/
theorem linkBlock_run (env : Ext2Env) (pointers : Pointers w v q indirect i used)
    (ground : Ground w)
    (enough : neededBlocks (q + 1) ≤ (freeBits (w.view (blockBitmapOf w))).card)
    (entry : q < 268) :
    ∃ x indirect' i' v' used', (linkBlock env q indirect i).run v = some ((x, indirect', i'), v') ∧
      Linking w v v' q indirect indirect' x i i' used used' := by
  have needed := pointers.length
  unfold neededBlocks at needed enough
  -- the three branches of the loop body: direct, first indirect, further indirect
  rcases Nat.lt_trichotomy q 12 with few | rfl | many
  · rw [if_neg (by omega)] at needed enough
    obtain ⟨x, v', ran, fresh, taken, view⟩ :=
      pointers.taken.alloc env ground (by omega)
    refine ⟨x, indirect, _, v', _, ?_, Linking.direct pointers ground few taken fresh view⟩
    simp only [linkBlock, Access.run_bind, ran, Option.bind_some, if_pos few, Access.run_pure,
      InodeField.block]
  · rw [if_neg (by omega)] at needed
    rw [if_pos (by omega)] at enough
    obtain ⟨link, v₁, ran, _, taken, view⟩ := pointers.taken.alloc env ground (by omega)
    obtain ⟨x, v₂, ran', _, taken', view'⟩ :=
      taken.alloc env ground (by rw [length_cons]; omega)
    refine ⟨x, link, _, _, _, ?_, Linking.first pointers ground taken' fun y other =>
      (view' y other).trans (view y other)⟩
    simp only [linkBlock, Access.run_bind, ran, Option.bind_some, if_neg (Nat.lt_irrefl 12), ran',
      ext2WriteIndirect_run (show 0 < 256 by decide), Access.run_pure, InodeField.block, if_true]
  · rw [if_pos many] at needed
    rw [if_pos (by omega)] at enough
    obtain ⟨x, v₁, ran, fresh, taken, view⟩ := pointers.taken.alloc env ground (by omega)
    have inside : q - 12 < 256 := by omega
    have inTable : q < ext2BlockSize / 4 + 12 := entry
    refine ⟨x, indirect, i, _, _, ?_, Linking.next pointers ground many taken fresh view⟩
    simp only [linkBlock, Access.run_bind, ran, Option.bind_some, if_neg (Nat.lt_asymm many),
      if_neg (Nat.ne_of_gt many), if_pos inTable, ext2WriteIndirect_run inside, Access.run_pure]

/-! ### The loop -/

/-- The bytes that are written for block `q` while `sz` bytes are left. -/
def chunk (sz : Nat) : Nat := if sz ≥ 1024 then 1024 else sz

/-- A round of the loop leaves a block less to write. -/
theorem blockCount_chunk (more : sz ≠ 0) :
    blockCount sz = blockCount (sz - if sz ≥ ext2BlockSize then ext2BlockSize else sz) + 1 := by
  by_cases whole : sz ≥ ext2BlockSize
  · rw [if_pos whole]
    simp only [blockCount, ext2BlockSize] at whole ⊢
    omega
  · rw [if_neg whole]
    simp only [blockCount, ext2BlockSize] at whole ⊢
    omega

theorem writeData_run (x : U32) (source : Bytes) (c : Nat) :
    (writeData x source c).run v = some ((),
      v.put x (patch (patch (v.view x) 0 1024 fun _ => 0#8) 0 c source)) := by
  simp only [writeData, Access.run_bind, run_bufferRead, run_bufferStore, run_bufferWrite,
    Option.bind_some, Buffered.store_view_self, Buffered.store_store, ext2BlockSize, Buffered.put]

/-- Before block `q` of a file of `n` bytes: the blocks before it are stored, and
the inode counts them. -/
structure Filled (w v : Buffered U32 Bytes) (data : Bytes) (n q : Nat) (indirect : U32)
    (i : Bytes) (used : List U32) : Prop where
  pointers : Pointers w v q indirect i used
  holds : FileHolds v i data n q
  sectors : get32 i 28 = BitVec.ofNat 32 (2 * q)

/-- The body of the loop stores one block. -/
theorem touchBlock_run (env : Ext2Env) (filled : Filled w v data n q indirect i used)
    (ground : Ground w)
    (enough : neededBlocks (q + 1) ≤ (freeBits (w.view (blockBitmapOf w))).card)
    (entry : q < 268) :
    ∃ indirect' i' v' used', (touchBlock env data q (n - q * 1024) indirect i).run v =
        some ((indirect', i'), v') ∧ Filled w v' data n (q + 1) indirect' i' used' := by
  obtain ⟨x, indirect', i', v₁, used', linked, linking⟩ :=
    linkBlock_run env filled.pointers ground enough entry
  have isUsed : x ∈ used' := by
    rw [← linking.new]
    exact linking.pointers.mine q (Nat.lt_succ_self q)
  have other : x ≠ indirect' := by
    rw [← linking.new]
    exact linking.pointers.apart q (Nat.lt_succ_self q)
  let bytes := patch (patch (v₁.view x) 0 1024 fun _ => 0#8) 0 (chunk (n - q * 1024))
    fun j => data (q * 1024 + j)
  obtain ⟨v₂, counted, taken, view⟩ := (linking.pointers.taken.put ground isUsed bytes).count ground
  have notShared := linking.pointers.indirect_apart ground
  have ran : (touchBlock env data q (n - q * 1024) indirect i).run v =
      some ((indirect', put32 i' 28 (get32 i' 28 + 2#32)), v₂) := by
    simp only [touchBlock, Access.run_bind, linked, Option.bind_some, writeData_run]
    show (countBlock.run (v₁.put x bytes)).bind _ = _
    rw [counted]
    rfl
  refine ⟨_, _, v₂, used', ran, ?_⟩
  have pointer : ∀ k ≤ 12, get32 (put32 i' 28 (get32 i' 28 + 2#32)) (40 + 4 * k) =
      get32 i' (40 + 4 * k) := fun k _ => get32_put32_apart (by omega)
  obtain ⟨pointers, same⟩ := linking.pointers.frame taken
    ((view indirect' notShared.1 notShared.2.1).trans (Buffered.put_view_other other.symm))
  constructor
  · exact pointers.inode pointer
  · intro j before k inBlock inFile
    rw [filePointer_inode pointer, same j before]
    have free := ground.free _ (linking.pointers.taken.free _ (linking.pointers.mine j before))
    rw [view _ free.2.1 free.2.2.1]
    rcases Nat.lt_succ_iff_lt_or_eq.mp before with earlier | rfl
    · -- a block of before: the new block is fresh, and the table was only appended to
      have mine := filled.pointers.mine j earlier
      have notNew : filePointer v i j ≠ x := by
        rintro isNew
        rw [isNew] at mine
        exact linking.fresh mine
      rw [linking.old j earlier, Buffered.put_view_other notNew,
        linking.view _ mine (filled.pointers.apart j earlier)]
      exact filled.holds j earlier k inBlock inFile
    · rw [linking.new, Buffered.put_view_self]
      have inChunk : k < 0 + chunk (n - j * 1024) := by
        unfold chunk
        split <;> omega
      exact patch_inside (Nat.zero_le k) inChunk
  · rw [get32_put32, linking.sectors, filled.sectors, Nat.mul_succ]
    exact (BitVec.ofNat_add (2 * q) 2).symm

/-- The loop ends when no byte is left, which is behind the last block. -/
private theorem touchLoop_done (env : Ext2Env) (fuel : Nat) (within : q ≤ blockCount n)
    (ended : n - q * 1024 = 0) : q = blockCount n ∧
      (touchLoop env data fuel q (n - q * 1024) indirect i).run v = some ((indirect, i), v) := by
  constructor
  · unfold blockCount at *
    omega
  · unfold touchLoop
    rw [if_pos ended, Access.run_pure]

/-- The loop stores the blocks of the file that are still missing. -/
theorem touchLoop_run (env : Ext2Env) (ground : Ground w)
    (enough : neededBlocks (blockCount n) ≤ (freeBits (w.view (blockBitmapOf w))).card)
    (small : blockCount n ≤ 268) {fuel : Nat} (fuelled : n - q * 1024 ≤ fuel)
    (within : q ≤ blockCount n) (filled : Filled w v data n q indirect i used) :
    ∃ indirect' i' v' used', (touchLoop env data fuel q (n - q * 1024) indirect i).run v =
        some ((indirect', i'), v') ∧ Filled w v' data n (blockCount n) indirect' i' used' := by
  -- on the fuel: each block takes at least one of the bytes that are left
  induction fuel generalizing q v indirect i used with
  | zero =>
    obtain ⟨all, ran⟩ := touchLoop_done env 0 within (Nat.le_zero.mp fuelled)
    exact ⟨indirect, i, v, used, ran, all ▸ filled⟩
  | succ fuel ih =>
    by_cases ended : n - q * 1024 = 0
    · obtain ⟨all, ran⟩ := touchLoop_done env (fuel + 1) within ended
      exact ⟨indirect, i, v, used, ran, all ▸ filled⟩
    · have more : q + 1 ≤ blockCount n := lt_blockCount_iff.mpr (Nat.lt_of_sub_ne_zero ended)
      have fuelledNext : n - (q + 1) * 1024 ≤ fuel := by
        rw [Nat.succ_mul, Nat.sub_add_eq]
        generalize n - q * 1024 = left at fuelled ended
        omega
      have enoughNow : neededBlocks (q + 1) ≤ (freeBits (w.view (blockBitmapOf w))).card :=
        Nat.le_trans (neededBlocks_mono more) enough
      obtain ⟨indirect₁, i₁, v₁, used₁, stepped, filled₁⟩ :=
        touchBlock_run env filled ground enoughNow (by omega)
      have left : n - q * 1024 - chunk (n - q * 1024) = n - (q + 1) * 1024 := by
        unfold chunk
        split <;> omega
      obtain ⟨indirect', i', v', used', ran, done⟩ :=
        ih fuelledNext more filled₁
      refine ⟨indirect', i', v', used', ?_, done⟩
      rw [touchLoop, if_neg ended, Access.run_bind_of_run stepped, ← ran, ← left]
      rfl

end Crunchy
