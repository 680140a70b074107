/-
Module: Crunchy.Proofs.ReverseTranslation
Purpose: `_phys_to_virt` against `_virt_to_phys`. The scan takes a directory entry for the
  address of its table, flags and all.
Trusted boundary: none
Main exports: flaggedSystem, misread, physToVirt_cases, Inverts,
  reverse_translation_inverts_iff
-/
import Crunchy.Proofs.Directory

namespace Crunchy

open Lib BitVec List Function

variable {n p : Nat} {β : Type} {a dir : U32}

/-! ### The scan -/

/-- The first index for which the body of a search loop returns. -/
theorem findSome?_range_some {body : Nat → Option β} {b : β}
    (found : (List.range n).findSome? body = some b) :
    ∃ i < n, body i = some b ∧ ∀ j < i, body j = none := by
  obtain ⟨front, i, back, parts, isSome, none⟩ := findSome?_eq_some_iff.mp found
  have length : front.length < n := by
    have total := congrArg List.length parts
    rw [length_range, length_append, length_cons] at total
    omega
  have isIndex : i = front.length := by
    have entry := congrArg (fun l : List Nat => l[front.length]?) parts
    simp only [getElem?_range length, getElem?_append_right (Nat.le_refl _),
      Nat.sub_self, getElem?_cons_zero, Option.some.injEq] at entry
    exact entry.symm
  have isFront : front = List.range front.length := by
    have taken := congrArg (List.take front.length) parts
    rw [take_left' rfl, take_range, Nat.min_eq_left (Nat.le_of_lt length)] at taken
    exact taken.symm
  refine ⟨i, isIndex ▸ length, isSome, fun j below => none j ?_⟩
  rw [isFront, mem_range, ← isIndex]
  exact below

theorem findSome?_range_none {body : Nat → Option β}
    (notFound : (List.range n).findSome? body = none) : ∀ i < n, body i = none :=
  fun i below => findSome?_eq_none_iff.mp notFound i (mem_range.mpr below)

/-- The word that the scan takes for the entry of page `p`. -/
def scannedWord (dir : U32) (mem : Memory) (p : Nat) : U32 :=
  lowWord mem (cell (mem (cell dir (BitVec.ofNat 32 (p / 1024)))) (BitVec.ofNat 32 (p % 1024)))

/-- The scan sees the frame `f` at page `p`. -/
def SeesFrame (dir : U32) (mem : Memory) (f : U32) (p : Nat) : Prop :=
  InUse dir mem (BitVec.ofNat 32 (p / 1024)) ∧ scannedWord dir mem p &&& ~~~0x3FF#32 = f

/-- The address of page `p`. -/
def pageAddr (p : Nat) : U32 := BitVec.ofNat 32 (p * 0x1000)

theorem pageAddr_slots (i q : Nat) :
    (BitVec.ofNat 32 i <<< 22) + (BitVec.ofNat 32 q <<< 12) = pageAddr (1024 * i + q) := by
  apply eq_of_toNat_eq
  rw [pageAddr, toNat_add, toNat_shiftLeft, toNat_shiftLeft,
    toNat_ofNat, toNat_ofNat, toNat_ofNat, Nat.shiftLeft_eq, Nat.shiftLeft_eq]
  omega

section Scan

variable {dir f : U32} {mem : Memory} {i q : Nat}

theorem seesFrame_at (inside : q < 1024) :
    SeesFrame dir mem f (1024 * i + q) ↔ InUse dir mem (BitVec.ofNat 32 i) ∧
      lowWord mem (cell (mem (cell dir (BitVec.ofNat 32 i))) (BitVec.ofNat 32 q)) &&& ~~~0x3FF#32 =
        f := by
  have slot : (1024 * i + q) / 1024 = i := by omega
  have index : (1024 * i + q) % 1024 = q := by omega
  rw [SeesFrame, scannedWord, slot, index]

variable (isFrame : f.toNat % 0x1000 = 0) (nonzero : f ≠ 0#32)

include isFrame nonzero

/-- The test of the scan, for the frame `f`. -/
theorem frameTest_iff (w : U32) :
    (w &&& ~~~0x3FF#32 ≠ 0#32 ∧ w &&& ~~~0x3FF#32 = f &&& ~~~0x3FF#32) ↔
      w &&& ~~~0x3FF#32 = f := by
  have same : f &&& ~~~0x3FF#32 = f := by
    apply eq_of_toNat_eq
    rw [toNat_and_not_3ff]
    omega
  rw [same]
  exact ⟨fun both => both.2, fun isSame => ⟨isSame ▸ nonzero, isSame⟩⟩

theorem physToVirtSlot_none (notFound : physToVirtSlot dir f mem i = none) (inside : q < 1024) :
    ¬ SeesFrame dir mem f (1024 * i + q) := by
  rw [seesFrame_at inside]
  rintro ⟨used, sees⟩
  have named : mem (cell dir (BitVec.ofNat 32 i)) &&& ~~~0x3FF#32 ≠ 0#32 := used
  simp only [physToVirtSlot, frameTest_iff isFrame nonzero] at notFound
  rw [if_pos named] at notFound
  have notHere := findSome?_range_none notFound q inside
  rw [if_pos sees] at notHere
  cases notHere

theorem physToVirtSlot_some {v : U32} (found : physToVirtSlot dir f mem i = some v) :
    ∃ q < 1024, SeesFrame dir mem f (1024 * i + q) ∧
      (∀ r < q, ¬ SeesFrame dir mem f (1024 * i + r)) ∧ v = pageAddr (1024 * i + q) := by
  simp only [physToVirtSlot, frameTest_iff isFrame nonzero] at found
  by_cases used : InUse dir mem (BitVec.ofNat 32 i)
  · have named : mem (cell dir (BitVec.ofNat 32 i)) &&& ~~~0x3FF#32 ≠ 0#32 := used
    rw [if_pos named] at found
    obtain ⟨q, inside, here, noneBefore⟩ := findSome?_range_some found
    split at here
    · rename_i sees
      cases here
      refine ⟨q, inside, (seesFrame_at inside).mpr ⟨used, sees⟩, fun r less seesEarlier => ?_,
        pageAddr_slots i q⟩
      have notThere := noneBefore r less
      rw [if_pos ((seesFrame_at (by omega)).mp seesEarlier).2] at notThere
      cases notThere
    · cases here
  · have unnamed : ¬ mem (cell dir (BitVec.ofNat 32 i)) &&& ~~~0x3FF#32 ≠ 0#32 := used
    rw [if_neg unnamed] at found
    cases found

/-- `_phys_to_virt` returns the address of the first page at which it sees the frame. -/
theorem physToVirt_cases :
    (∃ p < 2 ^ 20, SeesFrame dir mem f p ∧ (∀ r < p, ¬ SeesFrame dir mem f r) ∧
      physToVirt dir f mem = pageAddr p) ∨
    ((∀ p < 2 ^ 20, ¬ SeesFrame dir mem f p) ∧ physToVirt dir f mem = 0#32) := by
  have parts : ∀ p, 1024 * (p / 1024) + p % 1024 = p := fun p => Nat.div_add_mod p 1024
  rw [physToVirt]
  cases found : (List.range 1024).findSome? (physToVirtSlot dir f mem) with
  | none =>
    right
    refine ⟨fun p below => ?_, rfl⟩
    have notHere := findSome?_range_none found (p / 1024) (by omega)
    rw [← parts p]
    exact physToVirtSlot_none isFrame nonzero notHere (by omega)
  | some v =>
    left
    obtain ⟨i, below, here, noneBefore⟩ := findSome?_range_some found
    obtain ⟨q, inside, sees, notInFront, rfl⟩ := physToVirtSlot_some isFrame nonzero here
    refine ⟨1024 * i + q, by omega, sees, fun r less => ?_, rfl⟩
    by_cases sameSlot : r / 1024 = i
    · rw [← parts r, sameSlot]
      exact notInFront (r % 1024) (by omega)
    · rw [← parts r]
      exact physToVirtSlot_none isFrame nonzero (noneBefore (r / 1024) (by omega)) (by omega)

end Scan

/-! ### What the scan reads -/

/-- Directories built by `_paging_map` calls with flags. -/
def flaggedSystem (dir : U32) : System DirBuild BuildEvent :=
  (buildSystem dir).restrict fun _ event =>
    match event with
    | .map _ _ flags => flags ≠ 0#32
    | .other => True

/-- The word of page `p` as the scan reads it: the table's flags stand in the low bits of
the directory entry, and the word begins that many bytes behind the page's entry. -/
def misread (dir : U32) (mem : Memory) (p : Nat) : U32 :=
  let entry := mem (cell dir (BitVec.ofNat 32 (p / 1024)))
  loadWord mem (cell (tableAt dir mem (BitVec.ofNat 32 (p / 1024)) + (entry &&& 0x3FF#32))
    (BitVec.ofNat 32 (p % 1024)))

/-- The region of page `p` has a table, and the misread word has the frame `f`. -/
def Misreads (dir : U32) (mem : Memory) (f : U32) (p : Nat) : Prop :=
  InUse dir mem (BitVec.ofNat 32 (p / 1024)) ∧ misread dir mem p &&& ~~~0x3FF#32 = f

instance (dir : U32) (mem : Memory) (f : U32) (p : Nat) : Decidable (Misreads dir mem f p) :=
  inferInstanceAs (Decidable (_ ∧ _))

/-- The slots hold physical addresses. -/
def PhysicalSlots (dir : U32) (mem : Memory) : Prop :=
  ∀ i : U32, i.toNat < 1024 → mem (cell dir i) &&& ~~~0x3FF#32 ≤ kernelVirt

theorem PhysicalSlots.of_reachable {run : DirBuild} (reached : (buildSystem dir).Reachable run) :
    Built dir run ∧ PhysicalSlots dir run.kernel.mem := by
  refine reached.invariant (fun run => Built dir run ∧ PhysicalSlots dir run.kernel.mem) ?_ ?_
  · intro run isStart
    refine ⟨Built.start isStart, fun i inside => ?_⟩
    rw [isStart.2.2.1 i inside]
    decide
  · rintro before event after ⟨built, physical⟩ taken
    refine ⟨built.step taken, fun i inside => ?_⟩
    change BuildStep dir before event after at taken
    cases taken with
    | map small done =>
      rename_i k phys virt flags
      obtain ⟨pt, mapDone⟩ := built.held.window.mapDone done
      by_cases own : i = pdiOf virt
      · have isTable := (mapDone.isOwn built.held).toTablePage
        have value := isTable.toNat_entry small
        show k.mem (cell dir i) &&& ~~~0x3FF#32 ≤ kernelVirt
        rw [own, mapDone.slotEntry, le_def, toNat_and_not_3ff, value,
          kernelVirt, toNat_ofNat]
        omega
      · show k.mem (cell dir i) &&& ~~~0x3FF#32 ≤ kernelVirt
        rw [mapDone.slot_kept built.held inside own]
        exact physical i inside
    | other window up slots tables =>
      rw [slots i inside]
      exact physical i inside

theorem scannedWord_eq_misread {mem : Memory} (physical : PhysicalSlots dir mem)
    (below : p < 2 ^ 20) : scannedWord dir mem p = misread dir mem p := by
  have index : (BitVec.ofNat 32 (p / 1024)).toNat < 1024 := by
    rw [toNat_ofNat]
    omega
  have low := physical _ index
  have address : ∀ entry q : U32, entry &&& ~~~0x3FF#32 ≤ kernelVirt →
      cell entry q + kernelVirt =
        cell (p2v (entry &&& ~~~0x3FF#32) + (entry &&& 0x3FF#32)) q := by
    intro entry q low
    have parts : (entry &&& ~~~0x3FF#32) + (entry &&& 0x3FF#32) = entry := by
      apply eq_of_toNat_eq
      rw [toNat_add, toNat_and_not_3ff, toNat_and_3ff]
      omega
    have moved : p2v (entry &&& ~~~0x3FF#32) + (entry &&& 0x3FF#32) = entry + kernelVirt := by
      rw [p2v, if_pos low, add_assoc, add_comm kernelVirt, ← add_assoc, parts]
    rw [moved, cell, cell, add_assoc, add_assoc, add_comm kernelVirt]
  rw [scannedWord, lowWord, address _ _ low]
  rfl

theorem misreads_iff {f : U32} {mem : Memory} (physical : PhysicalSlots dir mem)
    (below : p < 2 ^ 20) : Misreads dir mem f p ↔ SeesFrame dir mem f p := by
  rw [Misreads, SeesFrame, scannedWord_eq_misread physical below]

/-! ### The two translations -/

/-- The frame `f` is mapped at some page other than page 0. -/
def MappedAt (dir f : U32) (run : DirBuild) : Prop :=
  ∃ w, run.HasMapped w ∧ pageOf w ≠ 0#32 ∧ pageOf (virtToPhys dir w run.kernel.mem) = f

/-- `_phys_to_virt` inverts `_virt_to_phys` for the frame `f`: an address it returns has
this frame, and it returns one where the frame is mapped. -/
def Inverts (dir f : U32) (run : DirBuild) : Prop :=
  (∀ v, physToVirt dir f run.kernel.mem = v → v ≠ 0#32 →
    pageOf (virtToPhys dir v run.kernel.mem) = f) ∧
  (MappedAt dir f run → physToVirt dir f run.kernel.mem ≠ 0#32)

theorem pageAddr_ne_zero (positive : 0 < p) (below : p < 2 ^ 20) :
    pageAddr p ≠ 0#32 := by
  intro zero
  have value := congrArg BitVec.toNat zero
  rw [pageAddr, toNat_ofNat, toNat_ofNat] at value
  omega

/-- For a frame the two translations agree exactly when the first page other than page 0
with a misread word of this frame is a page of the frame, and, should the frame be mapped
there, some page but not page 0 has such a word. -/
theorem reverse_translation_inverts_iff {dir f : U32} {run : DirBuild}
    (reached : (flaggedSystem dir).Reachable run) (isFrame : f.toNat % 0x1000 = 0)
    (nonzero : f ≠ 0#32) :
    Inverts dir f run ↔
      (∀ p, 0 < p → p < 2 ^ 20 → Misreads dir run.kernel.mem f p →
        pageOf (virtToPhys dir (pageAddr p) run.kernel.mem) = f ∨
          ∃ r < p, Misreads dir run.kernel.mem f r) ∧
      (MappedAt dir f run →
        (∃ p < 2 ^ 20, Misreads dir run.kernel.mem f p) ∧ ¬ Misreads dir run.kernel.mem f 0) := by
  obtain ⟨_, physical⟩ := PhysicalSlots.of_reachable reached.of_restrict
  have sees : ∀ p < 2 ^ 20, (Misreads dir run.kernel.mem f p ↔ SeesFrame dir run.kernel.mem f p) :=
    fun p below => misreads_iff physical below
  rcases physToVirt_cases isFrame nonzero with ⟨p, below, seen, first, returned⟩ | ⟨none, returned⟩
  · -- the first page with a misread word of this frame is returned
    have isFirst : ∀ r < p, ¬ Misreads dir run.kernel.mem f r := fun r less misreads =>
      first r less ((sees r (Nat.lt_trans less below)).mp misreads)
    have misreadsP := (sees p below).mpr seen
    rw [Inverts, returned]
    constructor
    · rintro ⟨sound, complete⟩
      refine ⟨fun r positive belowR misreadsR => ?_, fun mapped => ⟨⟨p, below, misreadsP⟩, ?_⟩⟩
      · rcases Nat.lt_trichotomy p r with less | rfl | more
        · exact Or.inr ⟨p, less, misreadsP⟩
        · exact Or.inl (sound _ rfl (pageAddr_ne_zero positive below))
        · exact absurd misreadsR (isFirst r more)
      · intro misreadsZero
        rcases Nat.eq_zero_or_pos p with rfl | positive
        · exact complete mapped rfl
        · exact isFirst 0 positive misreadsZero
    · rintro ⟨sound, complete⟩
      have positive : pageAddr p ≠ 0#32 → 0 < p := by
        intro notZero
        rcases Nat.eq_zero_or_pos p with rfl | positive
        · exact absurd rfl notZero
        · exact positive
      refine ⟨?_, fun mapped => ?_⟩
      · rintro v rfl notZero
        rcases sound p (positive notZero) below misreadsP with isPage | ⟨r, less, misreadsR⟩
        · exact isPage
        · exact absurd misreadsR (isFirst r less)
      · rcases Nat.eq_zero_or_pos p with rfl | positive
        · exact absurd misreadsP (complete mapped).2
        · exact pageAddr_ne_zero positive below
  · have noMisread : ∀ p < 2 ^ 20, ¬ Misreads dir run.kernel.mem f p := fun p below misreads =>
      none p below ((sees p below).mp misreads)
    rw [Inverts, returned]
    constructor
    · rintro ⟨_, complete⟩
      exact ⟨fun p _ below misreads => absurd misreads (noMisread p below),
        fun mapped => absurd rfl (complete mapped)⟩
    · rintro ⟨_, complete⟩
      refine ⟨fun v isZero notZero => absurd isZero.symm notZero, fun mapped => ?_⟩
      obtain ⟨⟨p, below, misreads⟩, _⟩ := complete mapped
      exact absurd misreads (noMisread p below)

/-! ### Small directories -/

/-- The empty directory at `0xC0101000`, with the heap of `mm_alloc` at `0xC0109000`. -/
def smallBuild : DirBuild := emptyBuild (mmBare 0xC0108000#32 0xC0300000#32) 0#32

theorem smallBuild_start : (buildSystem 0xC0101000#32).Start smallBuild :=
  emptyBuild_start ⟨by decide, by decide, by decide, by decide⟩ rfl 0#32

/-- The directory after one more call, which finds its table at `page` or takes it. -/
def DirBuild.map (phys virt flags page : U32) (mm : Mm) (run : DirBuild) : DirBuild where
  kernel :=
    { run.kernel with
      mm
      mem := pagingMap page 0xC0101000#32 phys virt flags run.kernel.mem }
  mapped := virt :: run.mapped

/-- The heap of `mm_alloc` behind the first table. -/
def smallMm : Mm := (mmAlloc 0x1000#32 (mmBare 0xC0108000#32 0xC0300000#32)).2

theorem toNat_wordOf (a : U32) : (a &&& ~~~3#32).toNat = a.toNat / 4 * 4 :=
  Lib.toNat_and_not_lowMask (k := 2) a (by decide)

/-- An aligned word. -/
theorem loadWord_aligned (mem : Memory) (aligned : a.toNat % 4 = 0) :
    loadWord mem a = mem a := by
  have same : a &&& ~~~3#32 = a := by
    apply eq_of_toNat_eq
    rw [toNat_wordOf]
    omega
  rw [loadWord, same, aligned]
  simp

/-- A word that begins with the last byte of another. -/
theorem loadWord_lastByte (mem : Memory) (aligned : a.toNat % 4 = 0) :
    loadWord mem (a + 3#32) = (mem a >>> 24) ||| (mem (a + 4#32) <<< 8) := by
  have sum : (a + 3#32).toNat = a.toNat + 3 := by
    rw [toNat_add, toNat_ofNat]
    omega
  have same : (a + 3#32) &&& ~~~3#32 = a := by
    apply eq_of_toNat_eq
    rw [toNat_wordOf, sum]
    omega
  have place : (a + 3#32).toNat % 4 = 3 := by omega
  rw [loadWord, same, place]

/-- One frame at two pages that follow each other, with flags 4: the misread word of the
first is the entry of the second. -/
def sharedFrame : DirBuild :=
  (smallBuild.map 0x5000#32 0x400000#32 4#32 0xC0109000#32 smallMm).map 0x5000#32 0x401000#32 4#32
    null smallMm

theorem reachable_sharedFrame : (flaggedSystem 0xC0101000#32).Reachable sharedFrame := by
  have started : (flaggedSystem 0xC0101000#32).Reachable smallBuild :=
    System.Reachable.start smallBuild_start
  have flagged : (4#32 : U32) ≠ 0#32 := by decide
  have first : smallBuild.kernel.pagingMap 0xC0101000#32 0x5000#32 0x400000#32 4#32 =
      some (smallBuild.map 0x5000#32 0x400000#32 4#32 0xC0109000#32 smallMm).kernel := rfl
  have second : (smallBuild.map 0x5000#32 0x400000#32 4#32 0xC0109000#32 smallMm).kernel.pagingMap
      0xC0101000#32 0x5000#32 0x401000#32 4#32 = some sharedFrame.kernel := rfl
  exact (started.step ⟨flagged, BuildStep.map (by decide) first⟩).step
    ⟨flagged, BuildStep.map (by decide) second⟩

/-- The words of its memory that are not zero. -/
theorem sharedFrame_word (notSlot : a ≠ 0xC0101004#32) (notFirst : a ≠ 0xC0109000#32)
    (notSecond : a ≠ 0xC0109004#32) : sharedFrame.kernel.mem a = 0#32 := by
  have words : sharedFrame.kernel.mem =
      Function.update (Function.update (Function.update (Function.update smallBuild.kernel.mem
        0xC0109000#32 0x5004#32) 0xC0101004#32 0x109004#32) 0xC0109004#32 0x5004#32)
        0xC0101004#32 0x109004#32 := rfl
  rw [words, update_of_ne notSlot, update_of_ne notSecond,
    update_of_ne notSlot, update_of_ne notFirst]
  exact ite_self _

theorem shared_frame_found : Inverts 0xC0101000#32 0x5000#32 sharedFrame := by
  refine (reverse_translation_inverts_iff reachable_sharedFrame (by decide) (by decide)).mpr
    ⟨fun p _ below misreads => Or.inl ?_, fun _ => ⟨⟨1024, by decide, by decide⟩, by decide⟩⟩
  obtain ⟨used, word⟩ := misreads
  -- only slot 1 is in use, and only the word of page 1024 has a frame
  have region : p / 1024 = 1 := by
    by_contra other
    rw [InUse, sharedFrame_word] at used
    · exact used (by decide)
    all_goals
      rw [cell]
      bv_omega
  have first : p % 1024 = 0 := by
    by_contra other
    have table : tableAt 0xC0101000#32 sharedFrame.kernel.mem 1#32 +
        (sharedFrame.kernel.mem (cell 0xC0101000#32 1#32) &&& 0x3FF#32) = 0xC0109004#32 := by
      decide
    have place : (cell 0xC0109004#32 (BitVec.ofNat 32 (p % 1024))).toNat =
        0xC0109004 + 4 * (p % 1024) := by
      rw [cell]
      bv_omega
    simp only [misread, region] at word
    rw [table, loadWord_aligned _ (by omega), sharedFrame_word] at word
    · exact absurd word (by decide)
    all_goals
      intro same
      have value := congrArg BitVec.toNat same
      rw [place, toNat_ofNat] at value
      omega
  have isFirst : p = 1024 := by omega
  rw [isFirst]
  decide

/-- A frame at page 1 alone, with flags 3. -/
def singleFrame : DirBuild :=
  smallBuild.map 0x5000#32 0x1000#32 3#32 0xC0109000#32 smallMm

theorem singleFrame_word (notSlot : a ≠ 0xC0101000#32) (notEntry : a ≠ 0xC0109004#32) :
    singleFrame.kernel.mem a = 0#32 := by
  have words : singleFrame.kernel.mem = Function.update (Function.update smallBuild.kernel.mem
      0xC0109004#32 0x5003#32) 0xC0101000#32 0x109003#32 := rfl
  rw [words, update_of_ne notSlot, update_of_ne notEntry]
  exact ite_self _

/-- Its entry begins in the middle of the misread words, and the frame is not found. -/
theorem singleFrame_unseen (p : Nat) (below : p < 2 ^ 20) :
    ¬ SeesFrame 0xC0101000#32 singleFrame.kernel.mem 0x5000#32 p := by
  rintro ⟨used, word⟩
  have region : p / 1024 = 0 := by
    by_contra other
    rw [InUse, singleFrame_word] at used
    · exact used (by decide)
    all_goals
      rw [cell]
      bv_omega
  have entry : singleFrame.kernel.mem (cell 0xC0101000#32 0#32) = 0x109003#32 := by decide
  have place : (cell 0xC0109000#32 (BitVec.ofNat 32 (p % 1024))).toNat =
      0xC0109000 + 4 * (p % 1024) := by
    rw [cell]
    bv_omega
  have address : cell 0x109003#32 (BitVec.ofNat 32 (p % 1024)) + kernelVirt =
      cell 0xC0109000#32 (BitVec.ofNat 32 (p % 1024)) + 3#32 := by
    rw [cell, cell, kernelVirt]
    bv_omega
  rw [scannedWord, region, entry, lowWord, address, loadWord_lastByte _ (by omega)] at word
  -- the entry is the second word of the table: pages 0 and 1 have bytes of it
  obtain first | second | later : p % 1024 = 0 ∨ p % 1024 = 1 ∨ 2 ≤ p % 1024 := by omega
  · rw [first] at word
    exact absurd word (by decide)
  · rw [second] at word
    exact absurd word (by decide)
  · rw [singleFrame_word (by bv_omega) (by bv_omega),
      singleFrame_word (by bv_omega) (by bv_omega)] at word
    exact absurd word (by decide)

/-- A frame that is mapped once is not found: the scan looks at words that begin three
bytes behind the entries. -/
theorem mapped_frame_not_found :
    ¬ ∀ (dir f : U32) (run : DirBuild), (flaggedSystem dir).Reachable run →
      f.toNat % 0x1000 = 0 → f ≠ 0#32 → Inverts dir f run := by
  intro inverts
  have started : (flaggedSystem 0xC0101000#32).Reachable smallBuild :=
    System.Reachable.start smallBuild_start
  have flagged : (3#32 : U32) ≠ 0#32 := by decide
  have first : smallBuild.kernel.pagingMap 0xC0101000#32 0x5000#32 0x1000#32 3#32 =
      some singleFrame.kernel := rfl
  have reached : (flaggedSystem 0xC0101000#32).Reachable singleFrame :=
    started.step ⟨flagged, BuildStep.map (by decide) first⟩
  have mapped : MappedAt 0xC0101000#32 0x5000#32 singleFrame :=
    ⟨0x1000#32, ⟨0x1000#32, mem_cons_self .., rfl⟩, by decide, by decide⟩
  have isFrame : (0x5000#32 : U32).toNat % 0x1000 = 0 := by decide
  have nonzero : (0x5000#32 : U32) ≠ 0#32 := by decide
  refine (inverts _ _ _ reached isFrame nonzero).2 mapped ?_
  rcases physToVirt_cases isFrame nonzero with ⟨p, below, sees, _⟩ | ⟨_, returned⟩
  · exact absurd sees (singleFrame_unseen p below)
  · exact returned

end Crunchy
