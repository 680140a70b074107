/-
Module: Crunchy.Proofs.Ext2Full
Purpose: Allocation on a full bitmap. `ext_first_free` is given the size of the copy
  in bytes where it counts words, so the scan of a full bitmap goes on behind the
  copy, and the bit it takes there is set in memory that belongs to something else.
Trusted boundary: none
Main exports: StaysInCopy, Refuses, full_volume_overruns
-/
import Crunchy.Proofs.Ext2Fresh

namespace Crunchy

open Lib BitVec List Function Buffered

variable {b : Words 32} {count q x num : Nat}

/-! ### The scan and the words it reads -/

theorem firstFreeBit_eq_none_iff {word : U32} :
    firstFreeBit word = none ↔ ∀ i < 32, word.getLsbD i = true := by
  rw [firstFreeBit, find?_eq_none]
  constructor
  · intro full i inside
    have notFree := full i (mem_range.mpr inside)
    rwa [decide_eq_true_eq, Words.freeBit_iff word inside, Bool.not_eq_false] at notFree
  · intro full i member
    have inside := mem_range.mp member
    rw [decide_eq_true_eq, Words.freeBit_iff word inside, full i inside]
    decide

/-- The scan reads word after word, and goes on while they have no zero bit. -/
theorem mem_extFirstFreeLoop :
    x ∈ (extFirstFreeLoop b count q).1 ↔
      q ≤ x ∧ x < q + count ∧ ∀ y, q ≤ y → y < x → firstFreeBit (b y) = none := by
  induction count generalizing q with
  | zero =>
    simp only [extFirstFreeLoop, not_mem_nil, false_iff]
    omega
  | succ count ih =>
    rw [extFirstFreeLoop]
    cases hit : firstFreeBit (b q) with
    | some i =>
      rw [mem_singleton]
      constructor
      · rintro rfl
        exact ⟨Nat.le_refl _, by omega, fun y above below => by omega⟩
      · rintro ⟨above, _, full⟩
        by_contra later
        have clear := full q (Nat.le_refl _) (by omega)
        rw [hit] at clear
        cases clear
    | none =>
      rw [mem_cons, ih]
      constructor
      · rintro (rfl | ⟨above, below, full⟩)
        · exact ⟨Nat.le_refl _, by omega, fun y above below => by omega⟩
        · refine ⟨by omega, by omega, fun y start before => ?_⟩
          rcases Nat.eq_or_lt_of_le start with rfl | later
          · exact hit
          · exact full y later before
      · rintro ⟨above, below, full⟩
        rcases Nat.eq_or_lt_of_le above with rfl | later
        · exact Or.inl rfl
        · exact Or.inr ⟨later, by omega, fun y start before => full y (by omega) before⟩

theorem findSome?_ite {α β : Type} (l : List α) (p : α → Prop) [DecidablePred p] (f : α → β) :
    (l.findSome? fun a => if p a then some (f a) else none) = (l.find? p).map f := by
  induction l with
  | nil => rfl
  | cons a l ih =>
    by_cases holds : p a
    · simp [holds]
    · simp [holds, ih]

/-- What the scan returns. -/
theorem extFirstFreeLoop_eq :
    (extFirstFreeLoop b count q).2 =
      (List.range' q count).findSome? fun q => (firstFreeBit (b q)).map (· + q * 32) := by
  induction count generalizing q with
  | zero => rfl
  | succ count ih =>
    rw [extFirstFreeLoop, range'_succ, findSome?_cons]
    cases firstFreeBit (b q) with
    | some i => rfl
    | none => exact ih

theorem extFirstFree_eq_loop (b : Words 32) (sz : Nat) :
    extFirstFree b sz = (extFirstFreeLoop b sz 0).2 := by
  rw [extFirstFree, Words.firstClear, extFirstFreeLoop_eq, ← range_eq_range']
  congr 1
  funext q
  exact findSome?_ite _ _ _

/-! ### The copy of a bitmap -/

variable {env : Ext2Env} {bitmap : Bytes}

/-- A word of the copy without a zero bit. -/
theorem firstFreeBit_copy (inside : q < 256) :
    firstFreeBit (bitmapWords env bitmap q) = none ↔
      ∀ i < 32, bitSet bitmap (32 * q + i) = true := by
  rw [firstFreeBit_eq_none_iff]
  refine forall₂_congr fun i below => ?_
  have word : (32 * q + i) / 32 = q := by omega
  have bit : (32 * q + i) % 32 = i := by omega
  have copied : (bitmapWords env bitmap).mem (32 * q + i) = bitSet bitmap (32 * q + i) :=
    mem_bitmapWords (by unfold bitCount; omega)
  rw [← copied, Words.mem, word, bit]

/-- The bitmap has no zero bit. -/
theorem full_iff (env : Ext2Env) :
    freeBits bitmap = ∅ ↔ ∀ q < 256, firstFreeBit (bitmapWords env bitmap q) = none := by
  rw [Finset.eq_empty_iff_forall_notMem]
  constructor
  · intro noFree q inside
    rw [firstFreeBit_copy inside]
    intro i below
    have notFree := noFree (32 * q + i)
    rw [mem_freeBits] at notFree
    unfold bitCount at notFree
    exact Bool.eq_true_of_not_eq_false fun clear => notFree ⟨by omega, clear⟩
  · intro full k free
    obtain ⟨inside, clear⟩ := mem_freeBits.mp free
    unfold bitCount at inside
    have set := (firstFreeBit_copy (by omega)).mp (full (k / 32) (by omega)) (k % 32) (by omega)
    rw [Nat.div_add_mod, clear] at set
    cases set

/-- Every word that is read or written lies in the copy. -/
def StaysInCopy (use : CopyUse) : Prop :=
  ∀ q ∈ use.reads ++ use.writes, q < 256

/-- The scan of a full bitmap reads the word behind the copy. -/
theorem reads_behind (env : Ext2Env) (full : freeBits bitmap = ∅) :
    256 ∈ (useCopy (bitmapWords env bitmap)).reads := by
  have scanned : 256 ∈ (extFirstFreeLoop (bitmapWords env bitmap) ext2BlockSize 0).1 := by
    rw [mem_extFirstFreeLoop]
    exact ⟨Nat.zero_le _, by decide, fun y _ below => (full_iff env).mp full y below⟩
  rw [useCopy]
  cases (extFirstFreeLoop (bitmapWords env bitmap) ext2BlockSize 0).2 with
  | none => exact scanned
  | some num => exact mem_append_left _ scanned

/-- The use of the copy, from what the scan finds. -/
theorem useCopy_found {memory : Words 32} (found : extFirstFree memory ext2BlockSize = some num) :
    useCopy memory =
      { reads := (extFirstFreeLoop memory ext2BlockSize 0).1 ++ num / 32 :: List.range 256
        writes := List.range 256 ++ [num / 32]
        outcome := some (BitVec.ofNat 32 (num + 1), memory.insert num) } := by
  rw [extFirstFree_eq_loop] at found
  rw [useCopy]
  simp only [found]
  rfl

theorem useCopy_none {memory : Words 32} (found : extFirstFree memory ext2BlockSize = none) :
    (useCopy memory).outcome = none := by
  rw [extFirstFree_eq_loop] at found
  simp only [useCopy, found]

/-! ### Full bitmaps -/

/-- What a call on a full bitmap should do: stay in the copy, leave the bitmap as it
is, and return no number of the group. -/
def Refuses (env : Ext2Env) (kind : AllocKind) (v : Buffered U32 Bytes) : Prop :=
  StaysInCopy (useCopy (bitmapWords env (v.view (kind.bitmap v)))) ∧
  ∀ number memory,
    (useCopy (bitmapWords env (v.view (kind.bitmap v)))).outcome = some (number, memory) →
    (∀ q < 256, memory q = bitmapWords env (v.view (kind.bitmap v)) q) ∧
    ¬ (1 ≤ number.toNat ∧ number.toNat ≤ 8192)

/-- A bit found on a full bitmap is a bit of the memory behind. -/
theorem found_behind (full : freeBits bitmap = ∅)
    (found : extFirstFree (bitmapWords env bitmap) ext2BlockSize = some num) :
    bitCount ≤ num ∧ num < 32768 := by
  obtain ⟨below, clear, _⟩ := Words.firstClear_eq_some_iff.mp found
  refine ⟨?_, below⟩
  by_contra inside
  rw [mem_bitmapWords (Nat.not_le.mp inside)] at clear
  have free := mem_freeBits.mpr ⟨Nat.not_le.mp inside, clear⟩
  rw [full] at free
  exact absurd free (Finset.notMem_empty num)

/-- No call on a full bitmap is refused in its copy, whatever the memory behind holds:
the scan always reads on behind it. If it returns, the bitmap is as it was and the
number is none of the group's, but a bit behind the copy has been set. -/
theorem full_volume_overruns (env : Ext2Env) (kind : AllocKind) {v : Buffered U32 Bytes}
    (full : freeBits (v.view (kind.bitmap v)) = ∅) :
    ¬ Refuses env kind v ∧
    256 ∈ (useCopy (bitmapWords env (v.view (kind.bitmap v)))).reads ∧
    ∀ number memory,
      (useCopy (bitmapWords env (v.view (kind.bitmap v)))).outcome = some (number, memory) →
      (∀ q < 256, memory q = bitmapWords env (v.view (kind.bitmap v)) q) ∧
      8192 < number.toNat ∧
      ∃ q ∈ (useCopy (bitmapWords env (v.view (kind.bitmap v)))).writes, 256 ≤ q := by
  have behind := reads_behind env full
  refine ⟨?_, behind, ?_⟩
  · rintro ⟨stays, _⟩
    exact absurd (stays 256 (mem_append_left _ behind)) (by decide)
  · intro number memory returned
    cases found : extFirstFree (bitmapWords env (v.view (kind.bitmap v))) ext2BlockSize with
    | none =>
      rw [useCopy_none found] at returned
      cases returned
    | some num =>
      obtain ⟨outside, below⟩ := found_behind full found
      unfold bitCount at outside
      rw [useCopy_found found] at returned ⊢
      cases returned
      refine ⟨fun q inside => ?_, ?_, num / 32, by simp, by omega⟩
      · exact update_of_ne (by omega) ..
      · rw [toNat_ofNat]
        omega

/-- The small volume with all bits of its bitmaps set. -/
def fullVolume : Buffered U32 Bytes where
  view x := if x = 3#32 ∨ x = 4#32 then fun _ => 0xFF#8 else smallVolume.view x
  disk x := if x = 3#32 ∨ x = 4#32 then fun _ => 0xFF#8 else smallVolume.disk x

theorem fullVolume_full (kind : AllocKind) :
    freeBits (fullVolume.view (kind.bitmap fullVolume)) = ∅ := by
  have isFull : fullVolume.view (kind.bitmap fullVolume) = fun _ => 0xFF#8 := by
    have isBitmap : kind.bitmap fullVolume = 3#32 ∨ kind.bitmap fullVolume = 4#32 := by
      cases kind <;> decide +kernel
    exact if_pos isBitmap
  rw [isFull, Finset.eq_empty_iff_forall_notMem]
  intro k free
  have clear := (mem_freeBits.mp free).2
  have word : get32 (fun _ => 0xFF#8) (4 * (k / 32)) = BitVec.allOnes 32 := by
    simp [get32, number]
  rw [bitSet, word, getLsbD_allOnes] at clear
  exact absurd (Nat.mod_lt k (by decide)) (of_decide_eq_false clear)

/-- A full volume, with cleared memory behind the copy. -/
theorem full_volume_overrun :
    freeBits (fullVolume.view (AllocKind.block.bitmap fullVolume)) = ∅ ∧
      256 ∈ (useCopy (bitmapWords clearEnv
        (fullVolume.view (AllocKind.block.bitmap fullVolume)))).reads :=
  ⟨fullVolume_full .block, (full_volume_overruns clearEnv .block (fullVolume_full .block)).2.1⟩

/-- On that volume `ext2_alloc_block` returns 8193, and the bit it sets is the first
one behind the copy. -/
theorem full_volume_not_refused :
    ((useCopy (bitmapWords clearEnv
      (fullVolume.view (AllocKind.block.bitmap fullVolume)))).outcome.map Prod.fst =
        some 8193#32) ∧
    ¬ ∀ env kind v, freeBits (v.view (AllocKind.bitmap v kind)) = ∅ → Refuses env kind v := by
  have full := fullVolume_full .block
  have found : extFirstFree (bitmapWords clearEnv
      (fullVolume.view (AllocKind.block.bitmap fullVolume))) ext2BlockSize = some 8192 := by
    refine Words.firstClear_eq_some_iff.mpr ⟨by decide, rfl, fun k below => ?_⟩
    rw [mem_bitmapWords below]
    refine Bool.eq_true_of_not_eq_false fun clear => ?_
    have free := mem_freeBits.mpr ⟨below, clear⟩
    rw [full] at free
    exact absurd free (Finset.notMem_empty k)
  refine ⟨by rw [useCopy_found found]; rfl, fun refused => ?_⟩
  obtain ⟨stays, _⟩ := refused clearEnv .block fullVolume full
  have behind := reads_behind clearEnv full
  exact absurd (stays 256 (mem_append_left _ behind)) (by decide)

end Crunchy
