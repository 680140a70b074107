/-
Module: Crunchy.Proofs.PagingUnmap
Purpose: `_paging_unmap` in an address space whose page tables are in the kernel
  window. It clears a word at the physical address of the table, far below the
  window, so the page stays mapped.
Trusted boundary: none
Main exports: pagingUnmap_window, Unmaps, unmap_undoes_map_iff
-/
import Crunchy.Proofs.Paging

namespace Crunchy

open Lib

variable {dir virt : U32} {run : DirRun}

/-- The physical address of a table lies below the window. -/
theorem masked_entry_low {i pt : U32} {mem : Memory} (isTable : TablePage dir pt)
    (names : NamesTable dir mem i pt) :
    (mem (cell dir i) &&& ~~~0x3FF#32).toNat + 4 * 1024 ≤ kernelVirt.toNat := by
  obtain ⟨flags, small, entry⟩ := names
  have value := isTable.toNat_entry small
  rw [toNat_and_not_3ff, entry, value, kernelVirt, BitVec.toNat_ofNat]
  omega

/-- Nothing in the window changes. -/
theorem pagingUnmap_window (holds : DirInvariant dir run) {a : U32} (inWindow : kernelVirt ≤ a) :
    (pagingUnmap dir virt run.mem).2 a = run.mem a := by
  rw [pagingUnmap]
  split
  · rename_i inUse
    rcases holds.slot (pdiOf virt) (toNat_pdiOf_lt virt) with empty | ⟨pt, member, names⟩
    · rw [dirEntry, empty] at inUse
      exact absurd rfl inUse
    · have low := masked_entry_low (holds.tablePage pt member) names
      have inside := toNat_ptiOf_lt virt
      have fits : (dirEntry dir virt run.mem &&& ~~~0x3FF#32).toNat + 4 * 1024 ≤ 2 ^ 32 := by
        rw [dirEntry]
        omega
      apply Function.update_of_ne
      rintro rfl
      rw [BitVec.le_def, toNat_cell fits inside, dirEntry] at inWindow
      omega
  · rfl

/-- The word of a table is in the window. -/
theorem cell_inWindow {base q : U32} (inWindow : kernelVirt ≤ base)
    (fits : base.toNat + 4 * 1024 ≤ 2 ^ 32) (inside : q.toNat < 1024) :
    kernelVirt ≤ cell base q := by
  rw [BitVec.le_def] at inWindow ⊢
  rw [toNat_cell fits inside]
  omega

/-- No walk sees a difference. -/
theorem pagingUnmap_walkEntry (holds : DirInvariant dir run) (inWindow : kernelVirt ≤ dir)
    (dirFits : dir.toNat + 4 * 1024 ≤ 2 ^ 32) (v : U32) :
    walkEntry dir v (pagingUnmap dir virt run.mem).2 = walkEntry dir v run.mem := by
  have sameSlot : (pagingUnmap dir virt run.mem).2 (cell dir (pdiOf v)) =
      run.mem (cell dir (pdiOf v)) :=
    pagingUnmap_window holds (cell_inWindow inWindow dirFits (toNat_pdiOf_lt v))
  rcases holds.slot (pdiOf v) (toNat_pdiOf_lt v) with empty | ⟨pt, member, names⟩
  · rw [walkEntry_of_empty empty, walkEntry_of_empty (sameSlot.trans empty)]
  · have isTable := holds.tablePage pt member
    have namesAfter : NamesTable dir (pagingUnmap dir virt run.mem).2 (pdiOf v) pt := by
      obtain ⟨flags, small, entry⟩ := names
      exact ⟨flags, small, sameSlot.trans entry⟩
    rw [walkEntry_of_names isTable names, walkEntry_of_names isTable namesAfter]
    exact pagingUnmap_window holds
      (cell_inWindow isTable.inWindow isTable.fits (toNat_ptiOf_lt v))

/-- What `_paging_unmap(dir, virt)` is for: the entry of the page is zero after it,
and those of the other mapped pages are as before. -/
def Unmaps (dir virt : U32) (run : DirRun) : Prop :=
  walkEntry dir virt (pagingUnmap dir virt run.mem).2 = 0#32 ∧
  ∀ v, pageOf v ≠ pageOf virt → lastCall run.calls v ≠ none →
    walkEntry dir v (pagingUnmap dir virt run.mem).2 = walkEntry dir v run.mem

/-- Unmapping a mapped page works exactly when the call that mapped it last had
written a zero entry anyway. -/
theorem unmap_undoes_map_iff (inWindow : kernelVirt ≤ dir)
    (dirFits : dir.toNat + 4 * 1024 ≤ 2 ^ 32) (reached : (dirSystem TablePage dir).Reachable run)
    {call : DirCall} (mapped : lastCall run.calls virt = some call) :
    Unmaps dir virt run ↔ call.phys = 0#32 ∧ call.mapFlags = 0#32 := by
  obtain ⟨holds, keeps⟩ := KeepsLastMappings.of_reachable dirFits reached
  obtain ⟨pt, member, names, entry⟩ := keeps virt call mapped
  have isEntry : walkEntry dir virt run.mem = call.phys ||| call.mapFlags := by
    rw [walkEntry_of_names (holds.tablePage pt member) names, entry]
  have same : ∀ v, walkEntry dir v (pagingUnmap dir virt run.mem).2 = walkEntry dir v run.mem :=
    pagingUnmap_walkEntry holds inWindow dirFits
  rw [Unmaps, same virt, isEntry, BitVec.or_eq_zero_iff]
  exact ⟨fun unmapped => unmapped.1, fun zero => ⟨zero, fun v _ _ => same v⟩⟩

/-- Page 1 mapped to frame 0 without flags, in the directory of `onePage`. -/
def zeroPage : DirRun :=
  onePage.after 0xC0101000#32 0#32 (.map 0#32 0x1000#32 0#32)

/-- Its entry is zero before and after. -/
theorem zero_page_unmapped :
    (dirSystem TablePage 0xC0101000#32).Reachable zeroPage ∧
      Unmaps 0xC0101000#32 0x1000#32 zeroPage := by
  have inUse : dirEntry 0xC0101000#32 0x1000#32 onePage.mem &&& ~~~0x3FF#32 ≠ 0#32 := by decide
  have reached : (dirSystem TablePage 0xC0101000#32).Reachable zeroPage :=
    reachable_onePage.step (DirStep.call (by decide) fun unused => absurd unused inUse)
  have mapped : lastCall zeroPage.calls 0x1000#32 = some (.map 0#32 0x1000#32 0#32) := by
    rw [zeroPage, DirRun.after_calls, lastCall_snoc]
    exact if_pos rfl
  exact ⟨reached, (unmap_undoes_map_iff (by decide) (by decide) reached mapped).mpr ⟨rfl, rfl⟩⟩

/-- Page 0 stays mapped to its frame: the word cleared is the one at `0x00105000`,
the table is at `0xC0105000`. -/
theorem page_stays_mapped :
    ¬ ∀ (dir virt : U32) (run : DirRun), kernelVirt ≤ dir → dir.toNat + 4 * 1024 ≤ 2 ^ 32 →
      (dirSystem TablePage dir).Reachable run → lastCall run.calls virt ≠ none →
      Unmaps dir virt run := by
  intro unmaps
  have cleared := (unmaps 0xC0101000#32 0#32 onePage (by decide) (by decide) reachable_onePage
    (by decide)).1
  exact absurd cleared (by decide)

end Crunchy
