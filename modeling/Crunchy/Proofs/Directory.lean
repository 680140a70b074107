/-
Module: Crunchy.Proofs.Directory
Purpose: A page directory in the kernel's memory, all of its 1024 slots, read as the code reads
  it: what `_paging_map` does to it, and the directories that are built with it while the rest of
  the kernel goes on.
Trusted boundary: none
Main exports: Held, DirBuild, buildSystem, Built
-/
import Crunchy.Proofs.AddressSpace

namespace Crunchy

open Lib BitVec List Function

variable {k : Kernel} {a dir i q w : U32}

/-! ### Slots -/

section Slots

variable {dir i pt flags : U32} {mem : Memory}

/-- An empty slot leads to physical page 0. -/
theorem tableAt_of_unused (unused : ¬ InUse dir mem i) : tableAt dir mem i = kernelVirt := by
  rw [tableAt, not_not.mp unused]
  decide

/-- The guard of `_virt_to_phys` never fires. -/
theorem virtToPhys_eq_tableAt (dir v : U32) (mem : Memory) :
    virtToPhys dir v mem = mem (cell (tableAt dir mem (pdiOf v)) (ptiOf v)) := by
  have notTaken : ¬ (if dirEntry dir v mem = 0#32 then 1#32 else 0#32) &&& ~~~0x3FF#32 ≠ 0#32 := by
    split <;> decide
  simp only [virtToPhys]
  rw [if_neg notTaken, dirEntry, tableAt]

/-- An entry with the virtual address of the table works as well. -/
theorem slot_of_rawEntry (isTable : TablePage dir pt) (small : flags.toNat < 0x400)
    (entry : mem (cell dir i) = pt ||| flags) : InUse dir mem i ∧ tableAt dir mem i = pt := by
  have aligned := isTable.aligned
  have inWindow := isTable.inWindow
  have notFirst : pt.toNat ≠ kernelVirt.toNat := fun same =>
    isTable.notFirst (eq_of_toNat_eq same)
  rw [le_def] at inWindow
  have masked : (pt ||| flags) &&& ~~~0x3FF#32 = pt := by
    apply eq_of_toNat_eq
    rw [toNat_and_not_3ff, toNat_or_of_aligned (k := 10) (by omega) (by simpa using small)]
    omega
  have high : ¬ pt ≤ kernelVirt := by
    rw [le_def]
    omega
  rw [InUse, tableAt, entry, masked, p2v, if_neg high]
  refine ⟨?_, rfl⟩
  rintro rfl
  exact absurd inWindow (by decide)

end Slots

/-! ### A directory in use -/

/-- The directory and its tables lie below the heap of `mm_alloc`, and each slot in use
has a table of its own. -/
structure Held (dir : U32) (k : Kernel) : Prop where
  window : HeapWindow k.mm
  below : dir.toNat + 4 * 1024 ≤ k.mm.mmHeap.toNat
  own : ∀ i, i.toNat < 1024 → InUse dir k.mem i → OwnTable dir k.mm (tableAt dir k.mem i)
  distinct : ∀ i j, i.toNat < 1024 → j.toNat < 1024 → InUse dir k.mem i → InUse dir k.mem j →
    tableAt dir k.mem i = tableAt dir k.mem j → i = j

namespace Held

variable {dir : U32} {k k' : Kernel} (holds : Held dir k)
include holds

theorem dirFits : dir.toNat + 4 * 1024 ≤ 2 ^ 32 := by
  have below := holds.below
  omega

/-- The page `mm_alloc` hands out next can hold a table. -/
theorem freshTable : TablePage dir k.mm.mmHeap :=
  ⟨⟨holds.window.aligned, BitVec.le_of_lt holds.window.inWindow, Or.inl holds.below⟩,
    (BitVec.ne_of_lt holds.window.inWindow).symm⟩

/-- No slot has it yet. -/
theorem table_ne_fresh (inside : i.toNat < 1024) (used : InUse dir k.mem i) :
    tableAt dir k.mem i ≠ k.mm.mmHeap := by
  intro same
  have below := (holds.own i inside used).below
  rw [same] at below
  omega

/-- The words of a table are not words of the directory. -/
theorem cell_ne_slot {pt : U32} (isTable : TablePage dir pt)
    (inTable : q.toNat < 1024) (inside : i.toNat < 1024) : cell pt q ≠ cell dir i :=
  cell_ne_of_apart isTable.fits holds.dirFits isTable.apart.symm inTable inside

/-- Slot `s` gets a table that no other slot has, the other slots stay. -/
theorem setSlot {s : U32} (window : HeapWindow k'.mm)
    (up : k.mm.mmHeap.toNat ≤ k'.mm.mmHeap.toNat)
    (own : OwnTable dir k'.mm (tableAt dir k'.mem s))
    (otherSlot : ∀ i, i.toNat < 1024 → i ≠ s → k'.mem (cell dir i) = k.mem (cell dir i))
    (otherTable : ∀ i, i.toNat < 1024 → i ≠ s → InUse dir k.mem i →
      tableAt dir k.mem i ≠ tableAt dir k'.mem s) : Held dir k' := by
  have before : ∀ i, i.toNat < 1024 → i ≠ s → InUse dir k'.mem i →
      InUse dir k.mem i ∧ tableAt dir k'.mem i = tableAt dir k.mem i := by
    intro i inside other used
    have same := otherSlot i inside other
    exact ⟨(inUse_congr same).mp used, tableAt_congr same⟩
  refine ⟨window, Nat.le_trans holds.below up, fun i inside used => ?_,
    fun i j iInside jInside iUsed jUsed same => ?_⟩
  · by_cases isSlot : i = s
    · rw [isSlot]
      exact own
    · obtain ⟨usedBefore, sameTable⟩ := before i inside isSlot used
      rw [sameTable]
      exact (holds.own i inside usedBefore).mono up
  · by_cases iSlot : i = s
    · by_cases jSlot : j = s
      · rw [iSlot, jSlot]
      · obtain ⟨usedBefore, sameTable⟩ := before j jInside jSlot jUsed
        rw [iSlot, sameTable] at same
        exact absurd same.symm (otherTable j jInside jSlot usedBefore)
    · obtain ⟨iBefore, iTable⟩ := before i iInside iSlot iUsed
      by_cases jSlot : j = s
      · rw [jSlot, iTable] at same
        exact absurd same (otherTable i iInside iSlot iBefore)
      · obtain ⟨jBefore, jTable⟩ := before j jInside jSlot jUsed
        rw [iTable, jTable] at same
        exact holds.distinct i j iInside jInside iBefore jBefore same

/-- The rest of the kernel goes on. -/
theorem mono (window : HeapWindow k'.mm)
    (up : k.mm.mmHeap.toNat ≤ k'.mm.mmHeap.toNat)
    (slots : ∀ i, i.toNat < 1024 → k'.mem (cell dir i) = k.mem (cell dir i)) : Held dir k' := by
  refine ⟨window, Nat.le_trans holds.below up, fun i inside used => ?_,
    fun i j iInside jInside iUsed jUsed same => ?_⟩
  · rw [tableAt_congr (slots i inside)]
    exact (holds.own i inside ((inUse_congr (slots i inside)).mp used)).mono up
  · rw [tableAt_congr (slots i iInside), tableAt_congr (slots j jInside)] at same
    exact holds.distinct i j iInside jInside ((inUse_congr (slots i iInside)).mp iUsed)
      ((inUse_congr (slots j jInside)).mp jUsed) same

end Held

/-! ### One mapping -/

namespace MapDone

variable {dir phys virt flags pt : U32} {k k' : Kernel} (step : MapDone dir phys virt flags k k' pt)
  (holds : Held dir k) (small : flags.toNat < 0x400)
include step holds

theorem isOwn : OwnTable dir k'.mm pt := by
  rcases step.source with ⟨used, rfl, _⟩ | ⟨_, rfl, moved⟩
  · exact (holds.own _ (toNat_pdiOf_lt virt) used).mono step.up
  · exact ⟨holds.freshTable, by omega⟩

/-- The table of another slot is not the one the call works on. -/
theorem other_ne (inside : i.toNat < 1024) (other : i ≠ pdiOf virt) (used : InUse dir k.mem i) :
    tableAt dir k.mem i ≠ pt := by
  rcases step.source with ⟨slotUsed, rfl, _⟩ | ⟨_, rfl, _⟩
  · exact fun same => other (holds.distinct i _ inside (toNat_pdiOf_lt virt) used slotUsed same)
  · exact holds.table_ne_fresh inside used

theorem slot_kept (inside : i.toNat < 1024) (other : i ≠ pdiOf virt) :
    k'.mem (cell dir i) = k.mem (cell dir i) :=
  step.otherSlot holds.below (step.isOwn holds) inside other

include small

/-- The slot then leads to the table. -/
theorem slot : InUse dir k'.mem (pdiOf virt) ∧ tableAt dir k'.mem (pdiOf virt) = pt :=
  slot_of_entry (step.isOwn holds).toTablePage small step.slotEntry

theorem held : Held dir k' := by
  obtain ⟨_, table⟩ := step.slot holds small
  refine holds.setSlot step.window step.up ?_ (fun i => step.slot_kept holds) ?_
  · rw [table]
    exact step.isOwn holds
  · intro i inside other used
    rw [table]
    exact step.other_ne holds inside other used

theorem inUse_iff (inside : i.toNat < 1024) :
    InUse dir k'.mem i ↔ i = pdiOf virt ∨ InUse dir k.mem i := by
  by_cases own : i = pdiOf virt
  · subst own
    exact ⟨fun _ => Or.inl rfl, fun _ => (step.slot holds small).1⟩
  · rw [inUse_congr (step.slot_kept holds inside own)]
    exact ⟨Or.inr, fun used => used.resolve_left own⟩

/-- The mapped page translates to its frame and flags. -/
theorem virtToPhys_self (same : pageOf w = pageOf virt) :
    virtToPhys dir w k'.mem = phys ||| flags := by
  obtain ⟨samePdi, samePti⟩ := pageOf_eq_iff_slots.mp same
  rw [virtToPhys_eq_tableAt, samePdi, samePti, (step.slot holds small).2]
  exact step.entry holds.below (step.isOwn holds)

/-- Another page of a region in use translates as before. -/
theorem virtToPhys_other (other : pageOf w ≠ pageOf virt) (used : InUse dir k.mem (pdiOf w)) :
    virtToPhys dir w k'.mem = virtToPhys dir w k.mem := by
  have sameTable : tableAt dir k'.mem (pdiOf w) = tableAt dir k.mem (pdiOf w) := by
    by_cases samePdi : pdiOf w = pdiOf virt
    · rw [samePdi, (step.slot holds small).2]
      rcases step.source with ⟨_, isTable, _⟩ | ⟨unused, _, _⟩
      · exact isTable
      · rw [samePdi] at used
        exact absurd used unused
    · exact tableAt_congr (step.slot_kept holds (toNat_pdiOf_lt w) samePdi)
  have isTable := (holds.own _ (toNat_pdiOf_lt w) used).toTablePage
  rw [virtToPhys_eq_tableAt, virtToPhys_eq_tableAt, sameTable]
  refine step.otherEntry holds.below (step.isOwn holds) isTable (toNat_ptiOf_lt w)
    fun isPt samePti => ?_
  by_cases samePdi : pdiOf w = pdiOf virt
  · exact other (pageOf_eq_iff_slots.mpr ⟨samePdi, samePti⟩)
  · exact step.other_ne holds (toNat_pdiOf_lt w) samePdi used isPt

/-- Another page of a region that had no table finds what the fresh page held. -/
theorem virtToPhys_fresh (other : pageOf w ≠ pageOf virt) (samePdi : pdiOf w = pdiOf virt)
    (unused : ¬ InUse dir k.mem (pdiOf w)) :
    virtToPhys dir w k'.mem = k.mem (cell k.mm.mmHeap (ptiOf w)) := by
  have isFresh : pt = k.mm.mmHeap := by
    rcases step.source with ⟨used, _, _⟩ | ⟨_, isFresh, _⟩
    · rw [samePdi] at unused
      exact absurd used unused
    · exact isFresh
  rw [virtToPhys_eq_tableAt, samePdi, (step.slot holds small).2, isFresh]
  refine step.otherEntry holds.below (step.isOwn holds) holds.freshTable (toNat_ptiOf_lt w) ?_
  exact fun _ samePti => other (pageOf_eq_iff_slots.mpr ⟨samePdi, samePti⟩)

end MapDone

/-! ### Directories built by mapping calls -/

/-- The kernel while a directory is built, and the addresses mapped in it so far. -/
structure DirBuild where
  kernel : Kernel
  mapped : List U32

/-- The page of `v` has been mapped. -/
def DirBuild.HasMapped (run : DirBuild) (v : U32) : Prop :=
  ∃ virt ∈ run.mapped, pageOf virt = pageOf v

inductive BuildEvent where
  | map (phys virt flags : U32)
  | other

/-- A call of `_paging_map` with flags below `0x400` that gets its table, or anything else
the kernel does: the allocators may move on and memory may change, except for the
directory and its tables. -/
inductive BuildStep (dir : U32) : DirBuild → BuildEvent → DirBuild → Prop where
  | map {run : DirBuild} {k : Kernel} {phys virt flags : U32} (small : flags.toNat < 0x400)
      (done : run.kernel.pagingMap dir phys virt flags = some k) :
      BuildStep dir run (.map phys virt flags) { kernel := k, mapped := virt :: run.mapped }
  | other {run : DirBuild} {k : Kernel} (window : HeapWindow k.mm)
      (up : run.kernel.mm.mmHeap.toNat ≤ k.mm.mmHeap.toNat)
      (slots : ∀ i, i.toNat < 1024 → k.mem (cell dir i) = run.kernel.mem (cell dir i))
      (tables : ∀ i q, i.toNat < 1024 → q.toNat < 1024 → InUse dir run.kernel.mem i →
        k.mem (cell (tableAt dir run.kernel.mem i) q) =
          run.kernel.mem (cell (tableAt dir run.kernel.mem i) q)) :
      BuildStep dir run .other { run with kernel := k }

/-- Directories built from an all-zero one that lies below the heap of `mm_alloc`. -/
def buildSystem (dir : U32) : System DirBuild BuildEvent where
  Start run := HeapWindow run.kernel.mm ∧ dir.toNat + 4 * 1024 ≤ run.kernel.mm.mmHeap.toNat ∧
    (∀ i, i.toNat < 1024 → run.kernel.mem (cell dir i) = 0#32) ∧ run.mapped = []
  Step := BuildStep dir

/-- A directory that was built so: the slots of its mapped pages are in use. -/
structure Built (dir : U32) (run : DirBuild) : Prop where
  held : Held dir run.kernel
  inUse : ∀ v, run.HasMapped v → InUse dir run.kernel.mem (pdiOf v)

namespace Built

variable {dir : U32} {run after : DirBuild} {event : BuildEvent}

theorem start (isStart : (buildSystem dir).Start run) : Built dir run := by
  obtain ⟨window, below, empty, noneMapped⟩ := isStart
  have unused : ∀ i, i.toNat < 1024 → ¬ InUse dir run.kernel.mem i := by
    intro i inside
    rw [InUse, empty i inside]
    decide
  refine ⟨⟨window, below, fun i inside used => absurd used (unused i inside),
    fun i j inside _ used => absurd used (unused i inside)⟩, ?_⟩
  rintro v ⟨virt, member, _⟩
  rw [noneMapped] at member
  cases member

theorem step (holds : Built dir run) (taken : BuildStep dir run event after) :
    Built dir after := by
  cases taken with
  | map small done =>
    obtain ⟨pt, mapDone⟩ := holds.held.window.mapDone done
    refine ⟨mapDone.held holds.held small, ?_⟩
    rintro v ⟨virt, member, samePage⟩
    refine (mapDone.inUse_iff holds.held small (toNat_pdiOf_lt v)).mpr ?_
    rcases mem_cons.mp member with rfl | earlier
    · exact Or.inl (pageOf_eq_iff_slots.mp samePage).1.symm
    · exact Or.inr (holds.inUse v ⟨virt, earlier, samePage⟩)
  | other window up slots tables =>
    refine ⟨holds.held.mono window up slots, fun v wasMapped => ?_⟩
    exact (inUse_congr (slots _ (toNat_pdiOf_lt v))).mpr (holds.inUse v wasMapped)

theorem of_reachable (reached : (buildSystem dir).Reachable run) : Built dir run :=
  reached.invariant (Built dir) (fun _ => start) fun _ _ _ holds taken => holds.step taken

end Built

/-! ### A kernel with an empty directory -/

/-- Nothing is mapped in the directory at `0xC0101000`; memory is clear but for the first
word of physical page 0. -/
def emptyBuild (mm : Mm) (first : U32) : DirBuild where
  kernel :=
    { mm
      mem := fun a => if a = kernelVirt then first else 0#32
      kernelPageDirectory := 0xC0101000#32
      currentPageDirectory := 0xC0101000#32
      frames := [] }
  mapped := []

theorem emptyBuild_start {mm : Mm} (window : HeapWindow mm) (heap : mm.mmHeap = 0xC0109000#32)
    (first : U32) : (buildSystem 0xC0101000#32).Start (emptyBuild mm first) := by
  refine ⟨window, ?_, fun i inside => ?_, rfl⟩
  · show (0xC0101000#32).toNat + 4 * 1024 ≤ mm.mmHeap.toNat
    rw [heap]
    decide
  · have fits : (0xC0101000#32 : U32).toNat + 4 * 1024 ≤ 2 ^ 32 := by decide
    refine if_neg fun same => ?_
    have value := congrArg BitVec.toNat same
    rw [toNat_cell fits inside, kernelVirt] at value
    simp only [toNat_ofNat] at value
    omega

end Crunchy
