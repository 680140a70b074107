/-
Module: Crunchy.Proofs.AddressSpace
Purpose: Directories built with the kernel's own allocators: one function from pages to entries,
  which `_paging_map` updates at one page, and what the loops of `k_create_pagedir` and
  `k_map_kernel` leave.
Trusted boundary: none
Main exports: DirShape, DirShape.map, FreshHeap, mapFresh_spec, address_space_built
-/
import Crunchy.Mem.AddressSpace
import Crunchy.Proofs.PageAllocator
import Crunchy.Proofs.Paging
import Mathlib.Tactic.Linarith

namespace Crunchy

open Lib List Option Function

variable {k k' : Kernel} {mm mm' : Mm} {j left n region spare : Nat}
  {dir flags i numpages other pd phys pt q s v virt w : U32}

/-! ### Slots -/

/-- Slot `i` of the directory is in use. -/
def InUse (dir : U32) (mem : Memory) (i : U32) : Prop :=
  mem (cell dir i) &&& ~~~0x3FF#32 ≠ 0#32

instance (dir : U32) (mem : Memory) (i : U32) : Decidable (InUse dir mem i) :=
  inferInstanceAs (Decidable (_ ≠ _))

/-- The table that the code finds in slot `i`. -/
def tableAt (dir : U32) (mem : Memory) (i : U32) : U32 :=
  p2v (mem (cell dir i) &&& ~~~0x3FF#32)

section Slots

variable {dir i pt flags : U32} {mem mem' : Memory}

theorem inUse_congr (same : mem' (cell dir i) = mem (cell dir i)) :
    InUse dir mem' i ↔ InUse dir mem i := by
  rw [InUse, InUse, same]

theorem tableAt_congr (same : mem' (cell dir i) = mem (cell dir i)) :
    tableAt dir mem' i = tableAt dir mem i := by
  rw [tableAt, tableAt, same]

/-- The entry that `_paging_map` writes. -/
theorem slot_of_entry (isTable : TablePage dir pt) (small : flags.toNat < 0x400)
    (entry : mem (cell dir i) = v2p pt ||| flags) : InUse dir mem i ∧ tableAt dir mem i = pt := by
  rw [InUse, tableAt, entry]
  exact ⟨(isTable.entry_ne_zero small).2, (isTable.p2v_entry small).1⟩

end Slots

/-! ### The shape of a directory -/

/-- A table page of `dir` that `mm_alloc` has handed out. -/
structure OwnTable (dir : U32) (mm : Mm) (pt : U32) : Prop extends TablePage dir pt where
  below : pt.toNat + 4 * 1024 ≤ mm.mmHeap.toNat

/-- A directory in use: it and its tables lie below the heap of `mm_alloc`, above
which memory is still zero; each slot is empty or names a table of its own. The
last two slots are left out: `k_create_pagedir` points them at directories. -/
structure DirShape (dir : U32) (k : Kernel) : Prop where
  window : HeapWindow k.mm
  below : dir.toNat + 4 * 1024 ≤ k.mm.mmHeap.toNat
  zeroed : ∀ a, k.mm.mmHeap ≤ a → k.mem a = 0#32
  slot : ∀ i, i.toNat < 1022 → k.mem (cell dir i) = 0#32 ∨
    ∃ pt, OwnTable dir k.mm pt ∧ NamesTable dir k.mem i pt
  oneSlot : ∀ i j pt, i.toNat < 1022 → j.toNat < 1022 → OwnTable dir k.mm pt →
    NamesTable dir k.mem i pt → NamesTable dir k.mem j pt → i = j

/-- An address whose slot is not one of the last two. -/
def LowSlot (v : U32) : Prop := (pdiOf v).toNat < 1022

theorem lowSlot_of_lt (low : v.toNat < 0xFF800000) : LowSlot v := by
  rw [LowSlot, toNat_pdiOf]
  omega

/-- Every slot in use carries the present bit. -/
def SlotsPresent (dir : U32) (mem : Memory) : Prop :=
  ∀ i, i.toNat < 1022 → mem (cell dir i) ≠ 0#32 → (mem (cell dir i)).getLsbD 0 = true

theorem SlotsPresent.update {value : U32} {mem mem' : Memory} (present : SlotsPresent dir mem)
    (bit : value.getLsbD 0 = true) (own : mem' (cell dir s) = value)
    (others : ∀ i, i.toNat < 1022 → i ≠ s → mem' (cell dir i) = mem (cell dir i)) :
    SlotsPresent dir mem' := by
  intro i inside
  by_cases isSlot : i = s
  · rw [isSlot, own]
    exact fun _ => bit
  · rw [others i inside isSlot]
    exact present i inside

theorem OwnTable.mono (own : OwnTable dir mm pt) (up : mm.mmHeap.toNat ≤ mm'.mmHeap.toNat) :
    OwnTable dir mm' pt :=
  ⟨own.toTablePage, Nat.le_trans own.below up⟩

namespace DirShape

variable {dir phys virt flags : U32} {k k' : Kernel} (holds : DirShape dir k)
include holds

theorem dirFits : dir.toNat + 4 * 1024 ≤ 2 ^ 32 := by
  have below := holds.below
  omega

theorem slots : NamedSlots 1022 dir k.mem (OwnTable dir k.mm) :=
  ⟨fun _ own => own.toTablePage, holds.slot, holds.oneSlot⟩

/-- The page `mm_alloc` hands out next can hold a table. -/
theorem freshTable : TablePage dir k.mm.mmHeap :=
  ⟨⟨holds.window.aligned, BitVec.le_of_lt holds.window.inWindow, Or.inl holds.below⟩,
    (BitVec.ne_of_lt holds.window.inWindow).symm⟩

/-- That page is still empty. -/
theorem freshTable_zero (inside : q.toNat < 1024) :
    k.mem (cell k.mm.mmHeap q) = 0#32 := by
  apply holds.zeroed
  rw [BitVec.le_def, toNat_cell holds.freshTable.fits inside]
  omega

/-- The allocators move on, and no slot changes. -/
theorem mono (window : HeapWindow k'.mm) (up : k.mm.mmHeap.toNat ≤ k'.mm.mmHeap.toNat)
    (zeroed : ∀ a, k'.mm.mmHeap ≤ a → k'.mem a = 0#32)
    (same : ∀ i, i.toNat < 1022 → k'.mem (cell dir i) = k.mem (cell dir i)) : DirShape dir k' := by
  have after := holds.slots.congr (by decide) (fun _ own => own.toTablePage)
    (fun _ own => own.mono up) same
  exact ⟨window, Nat.le_trans holds.below up, zeroed, after.slot, after.oneSlot⟩

/-- Slot `s` gets a table no other slot names, the other slots stay. -/
theorem setSlot (window : HeapWindow k'.mm) (up : k.mm.mmHeap.toNat ≤ k'.mm.mmHeap.toNat)
    (zeroed : ∀ a, k'.mm.mmHeap ≤ a → k'.mem a = 0#32)
    (own : OwnTable dir k'.mm pt) (names : NamesTable dir k'.mem s pt)
    (otherSlot : ∀ i, i.toNat < 1022 → i ≠ s → k'.mem (cell dir i) = k.mem (cell dir i))
    (otherTable : ∀ i other, i.toNat < 1022 → i ≠ s → OwnTable dir k.mm other →
      NamesTable dir k.mem i other → other ≠ pt) : DirShape dir k' := by
  have after := holds.slots.set (fun _ own => own.toTablePage) (fun _ own => own.mono up)
    (fun _ => ⟨own, names⟩) otherSlot otherTable
  exact ⟨window, Nat.le_trans holds.below up, zeroed, after.slot, after.oneSlot⟩

/-- A slot in use has a table, which it names. -/
theorem table (inside : i.toNat < 1022) (used : InUse dir k.mem i) :
    OwnTable dir k.mm (tableAt dir k.mem i) ∧ NamesTable dir k.mem i (tableAt dir k.mem i) := by
  rcases holds.slot i inside with empty | ⟨pt, own, names⟩
  · rw [InUse, empty] at used
    exact absurd rfl used
  · rw [show tableAt dir k.mem i = pt from (names.spec own.toTablePage).2.2.1]
    exact ⟨own, names⟩

/-- Any other slot is empty. -/
theorem empty (inside : i.toNat < 1022) (unused : ¬ InUse dir k.mem i) :
    k.mem (cell dir i) = 0#32 :=
  (holds.slot i inside).resolve_right fun ⟨_, own, names⟩ =>
    unused (names.spec own.toTablePage).2.1

end DirShape

/-! ### One mapping -/

/-- What `_paging_map` has done: it worked on the table `pt`, which its slot had or which
is the page `mm_alloc` had next. -/
structure MapDone (dir phys virt flags : U32) (k k' : Kernel) (pt : U32) : Prop where
  source : (InUse dir k.mem (pdiOf virt) ∧ pt = tableAt dir k.mem (pdiOf virt) ∧ k'.mm = k.mm) ∨
    (¬ InUse dir k.mem (pdiOf virt) ∧ pt = k.mm.mmHeap ∧
      k'.mm.mmHeap.toNat = k.mm.mmHeap.toNat + 0x4000)
  mem : k'.mem = mapWords dir pt phys virt flags k.mem
  window : HeapWindow k'.mm
  bitmaps : k'.mm.mmCurrentPd = k.mm.mmCurrentPd ∧ k'.mm.mmCurrentPt = k.mm.mmCurrentPt
  frames : k'.frames = k.frames
  currentPd : k'.currentPageDirectory = k.currentPageDirectory

theorem HeapWindow.mapDone (window : HeapWindow k.mm)
    (done : k.pagingMap dir phys virt flags = some k') :
    ∃ pt, MapDone dir phys virt flags k k' pt := by
  rw [Kernel.pagingMap] at done
  by_cases used : InUse dir k.mem (pdiOf virt)
  · have named : dirEntry dir virt k.mem &&& ~~~0x3FF#32 ≠ 0#32 := used
    rw [if_pos named] at done
    cases done
    refine ⟨_, Or.inl ⟨used, rfl, rfl⟩, ?_, window, ⟨rfl, rfl⟩, rfl, rfl⟩
    simp only [pagingMap, tableFor]
    rw [if_pos named]
    rfl
  · have unnamed : ¬ dirEntry dir virt k.mem &&& ~~~0x3FF#32 ≠ 0#32 := used
    have bitmaps := mmAlloc_bitmaps 0x1000#32 k.mm
    rw [if_neg unnamed] at done
    rcases allocated : mmAlloc 0x1000#32 k.mm with ⟨page, mm⟩
    rw [allocated] at done bitmaps
    dsimp only at done
    split at done
    · cases done
    · rename_i served
      cases done
      obtain ⟨window, isHeap, moved⟩ := window.alloc (by decide) allocated served
      refine ⟨page, Or.inr ⟨used, isHeap, moved⟩, ?_, window, bitmaps, rfl, rfl⟩
      simp only [pagingMap, tableFor]
      rw [if_neg unnamed]
      rfl

namespace MapDone

variable {dir phys virt flags pt : U32} {k k' : Kernel} (step : MapDone dir phys virt flags k k' pt)
include step

theorem up : k.mm.mmHeap.toNat ≤ k'.mm.mmHeap.toNat := by
  rcases step.source with ⟨_, _, same⟩ | ⟨_, _, moved⟩
  · rw [same]
  · omega

theorem slotEntry : k'.mem (cell dir (pdiOf virt)) = v2p pt ||| flags := by
  rw [step.mem]
  exact mapWords_dirEntry

theorem names (small : flags.toNat < 0x400) : NamesTable dir k'.mem (pdiOf virt) pt :=
  ⟨flags, small, step.slotEntry⟩

variable (dirBelow : dir.toNat + 4 * 1024 ≤ k.mm.mmHeap.toNat) (own : OwnTable dir k'.mm pt)
include dirBelow own

theorem otherSlot (inside : i.toNat < 1024) (other : i ≠ pdiOf virt) :
    k'.mem (cell dir i) = k.mem (cell dir i) := by
  rw [step.mem]
  exact mapWords_otherSlot (by omega) own.toTablePage inside other

theorem entry : k'.mem (cell pt (ptiOf virt)) = phys ||| flags := by
  rw [step.mem]
  exact mapWords_entry (by omega) own.toTablePage

/-- Other entries of the table and all entries of other tables stay. -/
theorem otherEntry {table : U32} (isTable : TablePage dir table) (inside : q.toNat < 1024)
    (other : table = pt → q ≠ ptiOf virt) : k'.mem (cell table q) = k.mem (cell table q) := by
  rw [step.mem]
  exact mapWords_otherEntry (by omega) own.toTablePage isTable inside other

/-- What lies above the heap is not written. -/
theorem above {a : U32} (isAbove : k'.mm.mmHeap ≤ a) : k'.mem a = k.mem a := by
  have ptBelow := own.below
  have up := step.up
  rw [BitVec.le_def] at isAbove
  rw [step.mem]
  refine mapWords_other ?_ ?_
  · rintro rfl
    rw [toNat_cell own.toTablePage.fits (toNat_ptiOf_lt virt)] at isAbove
    have inside := toNat_ptiOf_lt virt
    omega
  · rintro rfl
    rw [toNat_cell (by omega) (toNat_pdiOf_lt virt)] at isAbove
    have inside := toNat_pdiOf_lt virt
    omega

end MapDone

namespace DirShape

variable {dir phys virt flags pt : U32} {k k' : Kernel} (holds : DirShape dir k)
  (low : LowSlot virt) (step : MapDone dir phys virt flags k k' pt)
include holds low step

theorem own : OwnTable dir k'.mm pt := by
  rcases step.source with ⟨used, rfl, _⟩ | ⟨_, rfl, moved⟩
  · exact (holds.table low used).1.mono step.up
  · exact ⟨holds.freshTable, by omega⟩

/-- The table of another slot is not the one the call works on. -/
theorem other_ne (inside : i.toNat < 1022) (differs : i ≠ pdiOf virt)
    (own : OwnTable dir k.mm other) (namesOther : NamesTable dir k.mem i other) : other ≠ pt := by
  rintro rfl
  rcases step.source with ⟨used, isTable, _⟩ | ⟨_, isHeap, _⟩
  · exact differs (holds.oneSlot i _ other inside low own namesOther
      (isTable ▸ (holds.table low used).2))
  · have below := own.below
    rw [isHeap] at below
    omega

theorem present (bit : flags.getLsbD 0 = true) (slots : SlotsPresent dir k.mem) :
    SlotsPresent dir k'.mem := by
  have own := holds.own low step
  refine slots.update ?_ step.slotEntry fun i inside differs =>
    step.otherSlot holds.below own (by omega) differs
  rw [own.toTablePage.entry_getLsbD (by decide)]
  exact bit

end DirShape

/-- Mapping a page keeps the shape, and to the walk the directory is updated at
that page alone. -/
theorem DirShape.map (holds : DirShape dir k) (small : flags.toNat < 0x400) (low : LowSlot virt)
    (done : k.pagingMap dir phys virt flags = some k') :
    DirShape dir k' ∧ ∀ w, LowSlot w → walkEntry dir w k'.mem =
      if pageOf w = pageOf virt then phys ||| flags else walkEntry dir w k.mem := by
  obtain ⟨pt, step⟩ := holds.window.mapDone done
  have own := holds.own low step
  have names := step.names small
  constructor
  · refine holds.setSlot step.window step.up (fun a above => ?_) own names
      (fun i inside differs => step.otherSlot holds.below own (by omega) differs)
      (fun i other inside differs => holds.other_ne low step inside differs)
    have up := step.up
    rw [step.above holds.below own above]
    apply holds.zeroed
    rw [BitVec.le_def] at above ⊢
    omega
  · intro w lowW
    by_cases sameSlot : pdiOf w = pdiOf virt
    · have namesW := names
      rw [← sameSlot] at namesW
      rw [walkEntry_of_names own.toTablePage namesW]
      by_cases samePage : pageOf w = pageOf virt
      · rw [if_pos samePage, (pageOf_eq_iff_slots.mp samePage).2]
        exact step.entry holds.below own
      · rw [if_neg samePage]
        have otherPti : ptiOf w ≠ ptiOf virt := fun same =>
          samePage (pageOf_eq_iff_slots.mpr ⟨sameSlot, same⟩)
        rw [step.otherEntry holds.below own own.toTablePage (toNat_ptiOf_lt w) fun _ => otherPti]
        -- the table was there before, or it is a fresh page and still empty
        rcases step.source with ⟨used, isTable, _⟩ | ⟨unused, isHeap, _⟩
        · rw [← sameSlot] at used isTable
          obtain ⟨oldOwn, oldNames⟩ := holds.table lowW used
          rw [walkEntry_of_names oldOwn.toTablePage oldNames, isTable]
        · rw [← sameSlot] at unused
          rw [walkEntry_of_empty (holds.empty lowW unused), isHeap]
          exact holds.freshTable_zero (toNat_ptiOf_lt w)
    · have otherPage : pageOf w ≠ pageOf virt := fun same =>
        sameSlot (pageOf_eq_iff_slots.mp same).1
      rw [if_neg otherPage]
      refine holds.slots.walk_congr lowW
        (step.otherSlot holds.below own (toNat_pdiOf_lt w) sameSlot) fun old oldOwn oldNames => ?_
      have differs := holds.other_ne low step lowW sameSlot oldOwn oldNames
      exact step.otherEntry holds.below own oldOwn.toTablePage (toNat_ptiOf_lt w) fun same =>
        absurd same differs

theorem DirShape.mapped_inUse (holds : DirShape dir k) (small : flags.toNat < 0x400)
    (low : LowSlot virt) (done : k.pagingMap dir phys virt flags = some k') :
    InUse dir k'.mem (pdiOf virt) := by
  obtain ⟨pt, step⟩ := holds.window.mapDone done
  exact ((step.names small).spec (holds.own low step).toTablePage).2.1

/-! ### The loops -/

theorem Sweeping.of_bitmaps (sweeping : Sweeping mm) (same : mm'.mmCurrentPd = mm.mmCurrentPd) :
    Sweeping mm' := by
  obtain ⟨region, positive, current⟩ := sweeping
  exact ⟨region, positive, current.bound, by rw [same]; exact current.full⟩

theorem frameTaken_iff_of_bitmaps (same : mm'.mmCurrentPd = mm.mmCurrentPd ∧
    mm'.mmCurrentPt = mm.mmCurrentPt) (f : U32) : FrameTaken mm' f ↔ FrameTaken mm f := by
  have current : ∀ region, CurrentRegion mm' region ↔ CurrentRegion mm region := by
    intro region
    constructor
    · rintro ⟨bound, full⟩
      exact ⟨bound, by rw [← same.1]; exact full⟩
    · rintro ⟨bound, full⟩
      exact ⟨bound, by rw [same.1]; exact full⟩
  simp only [FrameTaken, current, same.2]

/-- What a call of `k_page_alloc` changes of the kernel. -/
structure AllocStep (k : Kernel) (phys : U32) (k' : Kernel) : Prop where
  returned : kPageAlloc k.mm = some (phys, k'.mm)
  mem : k'.mem = k.mem
  frames : k'.frames = phys :: k.frames
  currentPd : k'.currentPageDirectory = k.currentPageDirectory

theorem Kernel.pageAlloc_step (done : k.pageAlloc = some (phys, k')) : AllocStep k phys k' := by
  obtain ⟨⟨a, mm⟩, returned, done⟩ := bind_eq_some_iff.mp done
  cases done
  exact ⟨returned, rfl, rfl, rfl⟩

theorem DirShape.alloc (holds : DirShape dir k) (step : AllocStep k phys k') : DirShape dir k' := by
  obtain ⟨window, up⟩ := holds.window.pageAlloc step.returned
  refine holds.mono window up (fun a above => ?_) fun i _ => by rw [step.mem]
  rw [step.mem]
  apply holds.zeroed
  rw [BitVec.le_def] at above ⊢
  omega

/-- The frames `fs` that `k_page_alloc` has returned between two states, none of which
was out before. -/
structure FreshFrames (k k' : Kernel) (fs : List U32) : Prop where
  frames : k'.frames = fs.reverse ++ k.frames
  sweeping : Sweeping k'.mm
  stillTaken : ∀ f, FrameTaken k.mm f → FrameTaken k'.mm f
  fresh : errNoMem ∉ fs → fs.Nodup ∧ ∀ f ∈ fs, ¬ FrameTaken k.mm f ∧ FrameTaken k'.mm f

/-- One more frame in front, with a step between that leaves the bitmaps alone. -/
theorem FreshFrames.cons {k₁ k₂ : Kernel} {fs : List U32} (rest : FreshFrames k₂ k' fs)
    (sweeping : Sweeping k.mm) (step : AllocStep k phys k₁)
    (bitmaps : k₂.mm.mmCurrentPd = k₁.mm.mmCurrentPd ∧ k₂.mm.mmCurrentPt = k₁.mm.mmCurrentPt)
    (frames : k₂.frames = k₁.frames) : FreshFrames k k' (phys :: fs) := by
  obtain ⟨_, kept, taken⟩ := kPageAlloc_taken sweeping step.returned
  have sameTaken := frameTaken_iff_of_bitmaps bitmaps
  refine ⟨?_, rest.sweeping, fun f out => rest.stillTaken f ((sameTaken f).mpr (kept f out)), ?_⟩
  · rw [rest.frames, frames, step.frames]
    simp
  · intro served
    rw [mem_cons, not_or] at served
    obtain ⟨notOut, out⟩ := taken (Ne.symm served.1)
    obtain ⟨nodup, restFresh⟩ := rest.fresh served.2
    have physTaken : FrameTaken k₂.mm phys := (sameTaken phys).mpr out
    refine ⟨nodup_cons.mpr ⟨fun member => (restFresh phys member).1 physTaken, nodup⟩, ?_⟩
    rintro f (_ | ⟨_, member⟩)
    · exact ⟨notOut, rest.stillTaken phys physTaken⟩
    · obtain ⟨notTaken, isTaken⟩ := restFresh f member
      exact ⟨fun before => notTaken ((sameTaken f).mpr (kept f before)), isTaken⟩

/-- The address `j` pages above `virt`. -/
def pageAbove (virt : U32) (j : Nat) : U32 :=
  virt + BitVec.ofNat 32 (j * 0x1000)

theorem toNat_pageAbove (fits : virt.toNat + j * 0x1000 < 2 ^ 32) :
    (pageAbove virt j).toNat = virt.toNat + j * 0x1000 :=
  toNat_add_ofNat fits

theorem pageAbove_zero (virt : U32) : pageAbove virt 0 = virt := by
  simp [pageAbove]

theorem pageAbove_succ (virt : U32) (j : Nat) :
    pageAbove (virt + 0x1000#32) j = pageAbove virt (j + 1) := by
  rw [pageAbove, pageAbove, Nat.succ_mul, BitVec.ofNat_add, BitVec.add_assoc,
    BitVec.add_comm 0x1000#32]

/-- Fewer than `2 ^ 20` pages on, it is another page. -/
theorem pageOf_ne_pageAbove {top : U32} (few : j + 1 < 2 ^ 20) :
    pageOf top ≠ pageOf (pageAbove top (j + 1)) := by
  intro same
  have value := congrArg BitVec.toNat same
  rw [pageOf, pageOf, toNat_and_not_fff, toNat_and_not_fff, pageAbove, BitVec.toNat_add,
    BitVec.toNat_ofNat] at value
  omega

/-- The pages after the first one are other pages. -/
theorem first_page_ne (inPage : pageOf w = pageOf virt) (few : j + 1 < 2 ^ 20) :
    pageOf w ≠ pageOf (pageAbove (virt + 0x1000#32) j) := by
  rw [inPage, pageAbove_succ]
  exact pageOf_ne_pageAbove few

/-- A page outside of a range is neither its first page nor one of the others. -/
theorem outside_cons (outside : ∀ j < left + 1, pageOf w ≠ pageOf (pageAbove virt j)) :
    pageOf w ≠ pageOf virt ∧ ∀ j < left, pageOf w ≠ pageOf (pageAbove (virt + 0x1000#32) j) := by
  refine ⟨?_, fun j below => ?_⟩
  · have differs := outside 0 (Nat.succ_pos _)
    rwa [pageAbove_zero] at differs
  · rw [pageAbove_succ]
    exact outside (j + 1) (by omega)

/-- What `mapFresh` leaves: the frames `fs` it was given, in the order of the pages
it mapped, none of which was out before. -/
structure FreshPages (dir flags : U32) (left : Nat) (virt : U32) (k k' : Kernel)
    (fs : List U32) : Prop extends FreshFrames k k' fs where
  length : fs.length = left
  shape : DirShape dir k'
  mapped : ∀ j f w, fs[j]? = some f → LowSlot w → pageOf w = pageOf (pageAbove virt j) →
    walkEntry dir w k'.mem = f ||| flags
  others : ∀ w, LowSlot w → (∀ j < left, pageOf w ≠ pageOf (pageAbove virt j)) →
    walkEntry dir w k'.mem = walkEntry dir w k.mem
  present : flags.getLsbD 0 = true → SlotsPresent dir k.mem → SlotsPresent dir k'.mem
  currentPd : k'.currentPageDirectory = k.currentPageDirectory

theorem mapFresh_spec (holds : DirShape dir k) (sweeping : Sweeping k.mm)
    (small : flags.toNat < 0x400) (fits : virt.toNat + left * 0x1000 ≤ 0xFF800000)
    (done : mapFresh dir flags left virt k = some k') :
    ∃ fs, FreshPages dir flags left virt k k' fs := by
  induction left generalizing virt k with
  | zero =>
    cases done
    exact ⟨[], ⟨rfl, sweeping, fun _ => id, by simp⟩, rfl, holds, by simp, by simp, fun _ => id,
      rfl⟩
  | succ left ih =>
    obtain ⟨⟨phys, k₁⟩, allocated, done⟩ := bind_eq_some_iff.mp done
    obtain ⟨k₂, mapped, done⟩ := bind_eq_some_iff.mp done
    have step := Kernel.pageAlloc_step allocated
    have sweeping₁ := (kPageAlloc_taken sweeping step.returned).1
    have shape₁ := holds.alloc step
    have low : LowSlot virt := lowSlot_of_lt (by omega)
    obtain ⟨pt, mapStep⟩ := shape₁.window.mapDone mapped
    obtain ⟨shape₂, walk⟩ := shape₁.map small low mapped
    have next : (virt + 0x1000#32).toNat = virt.toNat + 0x1000 := toNat_add_ofNat (by omega)
    obtain ⟨fs, rest⟩ := ih shape₂ (sweeping₁.of_bitmaps mapStep.bitmaps.1)
      (by omega) done
    refine ⟨phys :: fs, ?_⟩
    constructor
    case toFreshFrames =>
      exact rest.toFreshFrames.cons sweeping step mapStep.bitmaps mapStep.frames
    case length => rw [length_cons, rest.length]
    case shape => exact rest.shape
    case mapped =>
      intro j f w found lowW inPage
      cases j with
      | zero =>
        rw [pageAbove_zero] at inPage
        cases found
        have later : ∀ j < left, pageOf w ≠ pageOf (pageAbove (virt + 0x1000#32) j) :=
          fun j below => first_page_ne inPage (by omega)
        rw [rest.others w lowW later, walk w lowW, if_pos inPage]
      | succ j =>
        rw [← pageAbove_succ] at inPage
        exact rest.mapped j f w found lowW inPage
    case others =>
      intro w lowW outside
      obtain ⟨notFirst, notLater⟩ := outside_cons outside
      rw [rest.others w lowW notLater, walk w lowW, if_neg notFirst, step.mem]
    case present =>
      intro bit slots
      rw [← step.mem] at slots
      exact rest.present bit (shape₁.present low mapStep bit slots)
    case currentPd => rw [rest.currentPd, mapStep.currentPd, step.currentPd]

namespace FreshPages

variable {dir flags : U32} {n : Nat} {virt w : U32} {k k' : Kernel} {fs : List U32}

theorem no_error (pages : FreshPages dir flags n virt k k' fs) (served : errNoMem ∉ k'.frames) :
    errNoMem ∉ fs := by
  rw [pages.frames, mem_append, not_or, mem_reverse] at served
  exact served.1

theorem new_frame (pages : FreshPages dir flags n virt k k' fs) (served : errNoMem ∉ k'.frames)
    {f : U32} (found : fs[j]? = some f) : ¬ FrameTaken k.mm f ∧ FrameTaken k'.mm f :=
  (pages.fresh (pages.no_error served)).2 f (mem_of_getElem? found)

theorem mapped_at (pages : FreshPages dir flags n virt k k' fs) (low : LowSlot w) (below : j < n)
    (samePage : pageOf w = pageOf (pageAbove virt j)) :
    ∃ f, fs[j]? = some f ∧ walkEntry dir w k'.mem = f ||| flags := by
  have found : fs[j]? = some (fs.get ⟨j, by rw [pages.length]; exact below⟩) :=
    getElem?_eq_getElem _
  exact ⟨_, found, pages.mapped j _ w found low samePage⟩

/-- The page of an address is one of the new ones or keeps its entry. -/
theorem entry_cases (pages : FreshPages dir flags n virt k k' fs) (low : LowSlot w) :
    (∃ j f, fs[j]? = some f ∧ pageOf w = pageOf (pageAbove virt j) ∧
      walkEntry dir w k'.mem = f ||| flags) ∨
    walkEntry dir w k'.mem = walkEntry dir w k.mem := by
  by_cases inside : ∃ j < n, pageOf w = pageOf (pageAbove virt j)
  · obtain ⟨j, below, samePage⟩ := inside
    obtain ⟨f, found, entry⟩ := pages.mapped_at low below samePage
    exact Or.inl ⟨j, f, found, samePage, entry⟩
  · refine Or.inr (pages.others w low fun j below samePage => ?_)
    exact inside ⟨j, below, samePage⟩

end FreshPages

/-- What the loop of `k_map_kernel` leaves: the pages from `i` on at their place in
the kernel window, and the rest of the directory and the allocator's bitmaps as
they were. -/
structure KernelPages (pd : U32) (left : Nat) (i : U32) (k k' : Kernel) : Prop where
  shape : DirShape pd k'
  bitmaps : k'.mm.mmCurrentPd = k.mm.mmCurrentPd ∧ k'.mm.mmCurrentPt = k.mm.mmCurrentPt
  frames : k'.frames = k.frames
  mapped : ∀ j < left, walkEntry pd (pageAbove i j + kernelVirt) k'.mem = pageAbove i j ||| 3#32
  others : ∀ w, w.toNat < 0xC0000000 + i.toNat → walkEntry pd w k'.mem = walkEntry pd w k.mem
  present : SlotsPresent pd k.mem → SlotsPresent pd k'.mem

theorem kMapKernelLoop_spec (holds : DirShape pd k) (aligned : i.toNat % 0x1000 = 0)
    (fits : i.toNat + left * 0x1000 ≤ 0x400000) (done : kMapKernelLoop pd left i k = some k') :
    KernelPages pd left i k k' := by
  induction left generalizing i k with
  | zero =>
    cases done
    exact ⟨holds, ⟨rfl, rfl⟩, rfl, by simp, fun _ _ => rfl, id⟩
  | succ left ih =>
    obtain ⟨k₁, mapped, done⟩ := bind_eq_some_iff.mp done
    have place : (i + kernelVirt).toNat = i.toNat + 0xC0000000 := toNat_add_ofNat (by omega)
    have next : (i + 0x1000#32).toNat = i.toNat + 0x1000 := toNat_add_ofNat (by omega)
    have low : LowSlot (i + kernelVirt) := lowSlot_of_lt (by omega)
    obtain ⟨pt, step⟩ := holds.window.mapDone mapped
    obtain ⟨shape, walk⟩ := holds.map (by decide) low mapped
    have rest := ih shape (by omega) (by omega) done
    constructor
    case shape => exact rest.shape
    case bitmaps =>
      exact ⟨rest.bitmaps.1.trans step.bitmaps.1, rest.bitmaps.2.trans step.bitmaps.2⟩
    case frames => exact rest.frames.trans step.frames
    case present => exact fun slots => rest.present (holds.present low step (by decide) slots)
    case mapped =>
      intro j below
      cases j with
      | zero =>
        rw [pageAbove_zero, rest.others _ (by omega), walk _ low, if_pos rfl]
      | succ j =>
        rw [← pageAbove_succ]
        exact rest.mapped j (by omega)
    case others =>
      intro w outside
      have otherPage : pageOf w ≠ pageOf (i + kernelVirt) := by
        intro same
        have value := congrArg BitVec.toNat same
        rw [pageOf, pageOf, toNat_and_not_fff, toNat_and_not_fff, place] at value
        omega
      rw [rest.others w (by omega), walk w (lowSlot_of_lt (by omega)), if_neg otherPage]

/-- Pointing a slot at the page `mm_alloc` has next keeps the shape. -/
theorem DirShape.newTable (holds : DirShape dir k) (small : flags.toNat < 0x400)
    (inside : s.toNat < 1022) (window : HeapWindow mm)
    (moved : mm.mmHeap.toNat = k.mm.mmHeap.toNat + 0x4000) :
    DirShape dir
      { k with mm, mem := Function.update k.mem (cell dir s) (v2p k.mm.mmHeap ||| flags) } := by
  have dirBelow := holds.below
  refine holds.setSlot window (by simp only; omega) (fun a above => ?_)
    ⟨holds.freshTable, by simp only; omega⟩ ⟨flags, small, update_self _ _ _⟩
    (fun i iInside differs => ?_) (fun i other _ _ own _ isHeap => ?_)
  · have notSlot : a ≠ cell dir s := by
      rintro rfl
      rw [BitVec.le_def, toNat_cell holds.dirFits (by omega)] at above
      simp only at above
      omega
    show Function.update k.mem _ _ a = 0#32
    rw [update_of_ne notSlot]
    apply holds.zeroed
    rw [BitVec.le_def] at above ⊢
    simp only at above
    omega
  · exact update_of_ne
      (fun same => differs (cell_inj holds.dirFits (by omega) (by omega) same)) _ _
  · have below := own.below
    rw [isHeap] at below
    omega

/-- The new table is empty, so the walk finds nothing more than before. -/
theorem DirShape.newTable_walk (holds : DirShape dir k) (small : flags.toNat < 0x400)
    (inside : s.toNat < 1022) (low : LowSlot w) (unmapped : walkEntry dir w k.mem = 0#32) :
    walkEntry dir w (Function.update k.mem (cell dir s) (v2p k.mm.mmHeap ||| flags)) = 0#32 := by
  have tableWord : ∀ pt q, TablePage dir pt → q.toNat < 1024 →
      Function.update k.mem (cell dir s) (v2p k.mm.mmHeap ||| flags) (cell pt q) =
        k.mem (cell pt q) := by
    intro pt q isTable qInside
    exact update_of_ne (cell_ne_of_apart isTable.fits holds.dirFits isTable.apart.symm
      qInside (by omega)) _ _
  by_cases isSlot : pdiOf w = s
  · subst isSlot
    have names : NamesTable dir
        (Function.update k.mem (cell dir (pdiOf w)) (v2p k.mm.mmHeap ||| flags)) (pdiOf w)
        k.mm.mmHeap := ⟨flags, small, update_self _ _ _⟩
    rw [walkEntry_of_names holds.freshTable names, tableWord _ _ holds.freshTable
      (toNat_ptiOf_lt w)]
    exact holds.freshTable_zero (toNat_ptiOf_lt w)
  · have slot : Function.update k.mem (cell dir s) (v2p k.mm.mmHeap ||| flags)
        (cell dir (pdiOf w)) = k.mem (cell dir (pdiOf w)) :=
      update_of_ne (fun same => isSlot (cell_inj holds.dirFits (toNat_pdiOf_lt w)
        (by omega) same)) _ _
    rw [holds.slots.walk_congr low slot fun pt own _ =>
      tableWord pt _ own.toTablePage (toNat_ptiOf_lt w)]
    exact unmapped

theorem DirShape.newTable_present (holds : DirShape dir k) (inside : s.toNat < 1022)
    (bit : flags.getLsbD 0 = true) (slots : SlotsPresent dir k.mem) :
    SlotsPresent dir (Function.update k.mem (cell dir s) (v2p k.mm.mmHeap ||| flags)) := by
  refine slots.update ?_ (update_self _ _ _) fun i iInside differs => ?_
  · rw [holds.freshTable.entry_getLsbD (by decide)]
    exact bit
  · exact update_of_ne
      (fun same => differs (cell_inj holds.dirFits (by omega) (by omega) same)) _ _

/-- What making tables ahead leaves: which slots had one does not matter, and no page
gets mapped. -/
structure TablesMade (pd flags : U32) (k k' : Kernel) : Prop where
  shape : DirShape pd k'
  bitmaps : k'.mm.mmCurrentPd = k.mm.mmCurrentPd ∧ k'.mm.mmCurrentPt = k.mm.mmCurrentPt
  frames : k'.frames = k.frames
  unmapped : ∀ w, LowSlot w → walkEntry pd w k.mem = 0#32 → walkEntry pd w k'.mem = 0#32
  present : flags.getLsbD 0 = true → SlotsPresent pd k.mem → SlotsPresent pd k'.mem

theorem tablesAhead_spec (holds : DirShape pd k) (small : flags.toNat < 0x400)
    (fits : virt.toNat + (i.toNat + left) * 0x400000 ≤ 0xFF800000)
    (done : tablesAhead pd virt flags left i k = some k') : TablesMade pd flags k k' := by
  induction left generalizing i k with
  | zero =>
    cases done
    exact ⟨holds, ⟨rfl, rfl⟩, rfl, fun _ _ => id, fun _ => id⟩
  | succ left ih =>
    rw [tablesAhead] at done
    have bitmaps := mmAlloc_bitmaps 0x1000#32 k.mm
    rcases allocated : mmAlloc 0x1000#32 k.mm with ⟨pt, mm⟩
    rw [allocated] at done bitmaps
    dsimp only at done
    split at done
    · cases done
    · rename_i served
      obtain ⟨window, isHeap, moved⟩ := holds.window.alloc (by decide) allocated served
      subst isHeap
      have address : (virt + i * 0x1000#32 * 0x400#32).toNat =
          virt.toNat + i.toNat * 0x400000 := by
        simp only [BitVec.toNat_add, BitVec.toNat_mul, BitVec.toNat_ofNat]
        omega
      have inside : (pdiOf (virt + i * 0x1000#32 * 0x400#32)).toNat < 1022 := by
        rw [toNat_pdiOf, address]
        omega
      have next : (i + 1#32).toNat = i.toNat + 1 := toNat_add_ofNat (by omega)
      have roomLeft : virt.toNat + ((i + 1#32).toNat + left) * 0x400000 ≤ 0xFF800000 := by
        rw [next, Nat.add_assoc, Nat.add_comm 1 left]
        exact fits
      have shape : DirShape pd
          { k with
            mm
            mem := Function.update k.mem (cell pd (pdiOf (virt + i * 0x1000#32 * 0x400#32)))
              (v2p k.mm.mmHeap ||| flags) } :=
        holds.newTable small inside window moved
      have rest := ih shape roomLeft done
      exact
        { shape := rest.shape
          bitmaps := ⟨rest.bitmaps.1.trans bitmaps.1, rest.bitmaps.2.trans bitmaps.2⟩
          frames := rest.frames
          unmapped := fun w low unmapped =>
            rest.unmapped w low (holds.newTable_walk small inside low unmapped)
          present := fun bit slots =>
            rest.present bit (holds.newTable_present inside bit slots) }

/-! ### The whole construction -/

/-- `mm_alloc` hands out fresh pages of the kernel window, zeroed. -/
structure FreshHeap (mm : Mm) (mem : Memory) : Prop where
  window : HeapWindow mm
  zeroed : ∀ a, mm.mmHeap ≤ a → mem a = 0#32

/-- A fresh page as a directory: nothing is mapped. -/
theorem FreshHeap.directory (fresh : FreshHeap k.mm k.mem)
    (allocated : mmAlloc 0x1000#32 k.mm = (pd, mm)) (served : pd ≠ null) :
    DirShape pd { k with mm } ∧ (∀ w, LowSlot w → walkEntry pd w k.mem = 0#32) ∧
      SlotsPresent pd k.mem := by
  obtain ⟨window, rfl, moved⟩ := fresh.window.alloc (by decide) allocated served
  have fits : k.mm.mmHeap.toNat + 4 * 1024 ≤ 2 ^ 32 := by omega
  have empty : ∀ i : U32, i.toNat < 1022 → k.mem (cell k.mm.mmHeap i) = 0#32 := by
    intro i inside
    apply fresh.zeroed
    rw [BitVec.le_def, toNat_cell fits (by omega)]
    omega
  refine ⟨⟨window, by simp only; omega, fun a above => ?_, fun i inside => Or.inl (empty i inside),
    fun i j pt inside _ own names _ => absurd (empty i inside) (names.spec own.toTablePage).1⟩,
    fun w low => walkEntry_of_empty (empty (pdiOf w) low),
    fun i inside used => absurd (empty i inside) used⟩
  apply fresh.zeroed
  rw [BitVec.le_def] at above ⊢
  simp only at above
  omega

/-- The last two slots of a directory are no part of its shape. -/
theorem DirShape.setLast (holds : DirShape dir k) (value : U32) (last : 1022 ≤ s.toNat)
    (inside : s.toNat < 1024) :
    DirShape dir { k with mem := Function.update k.mem (cell dir s) value } ∧
      (∀ w, LowSlot w → walkEntry dir w (Function.update k.mem (cell dir s) value) =
        walkEntry dir w k.mem) ∧
      (SlotsPresent dir k.mem → SlotsPresent dir (Function.update k.mem (cell dir s) value)) := by
  have dirBelow := holds.below
  have otherSlot : ∀ i, i.toNat < 1022 →
      Function.update k.mem (cell dir s) value (cell dir i) = k.mem (cell dir i) := by
    intro i low
    refine update_of_ne (fun same => ?_) _ _
    cases cell_inj holds.dirFits (by omega) inside same
    omega
  refine ⟨holds.mono holds.window (Nat.le_refl _) (fun a above => ?_) otherSlot, fun w low => ?_,
    fun slots i low => ?_⟩
  · have notSlot : a ≠ cell dir s := by
      rintro rfl
      rw [BitVec.le_def, toNat_cell holds.dirFits inside] at above
      simp only at above
      omega
    show Function.update k.mem _ _ a = 0#32
    rw [update_of_ne notSlot]
    exact holds.zeroed a above
  · refine holds.slots.walk_congr low (otherSlot _ low) fun pt own _ => update_of_ne ?_ _ _
    exact cell_ne_of_apart own.toTablePage.fits holds.dirFits own.toTablePage.apart.symm
      (toNat_ptiOf_lt w) inside
  · rw [otherSlot i low]
    exact slots i low

/-- The processor finds a page exactly where its entry is present. -/
theorem DirShape.present_iff (holds : DirShape dir k) (slots : SlotsPresent dir k.mem)
    (low : LowSlot w) :
    (effective dir w k.mem).present = (walkEntry dir w k.mem).getLsbD 0 := by
  rcases holds.slot (pdiOf w) low with empty | ⟨pt, own, names⟩
  · rw [effective_of_empty empty, walkEntry_of_empty empty]
    rfl
  · have used : (dirEntry dir w k.mem).getLsbD 0 = true :=
      slots _ low (names.spec own.toTablePage).1
    rw [effective_of_names own.toTablePage names, walkEntry_of_names own.toTablePage names, used,
      Bool.true_and]

/-- A page with an entry is one `_virt_to_phys` finds. -/
theorem DirShape.virtToPhys_eq (holds : DirShape dir k) (low : LowSlot v)
    (mapped : walkEntry dir v k.mem ≠ 0#32) :
    virtToPhys dir v k.mem = walkEntry dir v k.mem := by
  rcases holds.slot (pdiOf v) low with empty | ⟨pt, own, names⟩
  · exact absurd (walkEntry_of_empty empty) mapped
  · rw [virtToPhys_of_names own.toTablePage names, walkEntry_of_names own.toTablePage names]

/-- What `k_create_pagedir` leaves: the frames `fs` in the order of the pages, and
nothing mapped besides. -/
structure CreatedSpace (virt numpages flags : U32) (k : Kernel) (pd : U32) (k' : Kernel)
    (fs : List U32) : Prop extends FreshFrames k k' fs where
  shape : DirShape pd k'
  length : fs.length = numpages.toNat
  mapped : ∀ j f w, fs[j]? = some f → LowSlot w → pageOf w = pageOf (pageAbove virt j) →
    walkEntry pd w k'.mem = f ||| flags
  unmapped : ∀ w, LowSlot w → (∀ j < numpages.toNat, pageOf w ≠ pageOf (pageAbove virt j)) →
    walkEntry pd w k'.mem = 0#32
  present : flags.getLsbD 0 = true → SlotsPresent pd k'.mem

/-- The tables made ahead reach at most one region into the kernel's half. -/
theorem tablesNeeded_fit (user : virt.toNat + numpages.toNat * 0x1000 ≤ 0xC0000000) :
    virt.toNat + ((0#32 : U32).toNat + (numpages / 1024#32 + 1#32).toNat) * 0x400000 ≤
      0xFF800000 := by
  have needed : (numpages / 1024#32 + 1#32).toNat = numpages.toNat / 1024 + 1 := by
    simp only [BitVec.toNat_add, BitVec.toNat_udiv, BitVec.toNat_ofNat, Nat.reducePow,
      Nat.reduceMod]
    omega
  have whole := Nat.div_mul_le_self numpages.toNat 1024
  rw [needed, BitVec.toNat_ofNat, Nat.zero_mod]
  linarith

theorem preallocate_spec (holds : DirShape pd k) (small : flags.toNat < 0x400)
    (user : virt.toNat + numpages.toNat * 0x1000 ≤ 0xC0000000)
    (done : preallocate pd virt numpages flags k = some k') : TablesMade pd flags k k' := by
  rw [preallocate] at done
  split at done
  · exact tablesAhead_spec holds small (tablesNeeded_fit user) done
  · cases done
    exact ⟨holds, ⟨rfl, rfl⟩, rfl, fun _ _ => id, fun _ => id⟩

/-- What a call that returns has done: the directory, the tables ahead, the pages, the
last two slots. -/
theorem kCreatePagedir_stages (done : kCreatePagedir virt numpages flags k = some (pd, k')) :
    ∃ mm k₁ k₂, mmAlloc 0x1000#32 k.mm = (pd, mm) ∧ pd ≠ null ∧
      preallocate pd virt numpages flags { k with mm } = some k₁ ∧
      mapFresh pd flags numpages.toNat virt k₁ = some k₂ ∧
      k' = { k₂ with
        mem := Function.update (Function.update k₂.mem (cell pd 1022#32)
          (v2p k₂.kernelPageDirectory ||| 0x3#32)) (cell pd 1023#32) (v2p pd ||| 0x3#32) } := by
  rw [kCreatePagedir] at done
  rcases allocated : mmAlloc 0x1000#32 k.mm with ⟨page, mm⟩
  rw [allocated] at done
  dsimp only at done
  split at done
  · cases done
  · rename_i served
    obtain ⟨k₁, ahead, done⟩ := bind_eq_some_iff.mp done
    obtain ⟨k₂, mapping, done⟩ := bind_eq_some_iff.mp done
    cases done
    exact ⟨mm, k₁, k₂, rfl, served, ahead, mapping, rfl⟩

theorem kCreatePagedir_spec (fresh : FreshHeap k.mm k.mem) (sweeping : Sweeping k.mm)
    (small : flags.toNat < 0x400) (user : virt.toNat + numpages.toNat * 0x1000 ≤ 0xC0000000)
    (done : kCreatePagedir virt numpages flags k = some (pd, k')) :
    ∃ fs, CreatedSpace virt numpages flags k pd k' fs := by
  have bitmaps := mmAlloc_bitmaps 0x1000#32 k.mm
  obtain ⟨mm, k₁, k₂, allocated, served, ahead, mapping, rfl⟩ := kCreatePagedir_stages done
  rw [allocated] at bitmaps
  obtain ⟨shape, empty, noSlots⟩ := fresh.directory allocated served
  have made := preallocate_spec shape small user ahead
  have same : k₁.mm.mmCurrentPd = k.mm.mmCurrentPd ∧ k₁.mm.mmCurrentPt = k.mm.mmCurrentPt :=
    ⟨made.bitmaps.1.trans bitmaps.1, made.bitmaps.2.trans bitmaps.2⟩
  obtain ⟨fs, pages⟩ := mapFresh_spec made.shape (sweeping.of_bitmaps same.1) small
    (Nat.le_trans user (by decide)) mapping
  -- the last two slots, for the kernel's directory and the directory itself
  obtain ⟨shape₃, walk₃, slots₃⟩ := pages.shape.setLast (s := 1022#32)
    (v2p k₂.kernelPageDirectory ||| 0x3#32) (by decide) (by decide)
  obtain ⟨shape₄, walk₄, slots₄⟩ := shape₃.setLast (s := 1023#32) (v2p pd ||| 0x3#32)
    (by decide) (by decide)
  have walk : ∀ w, LowSlot w → walkEntry pd w (Function.update (Function.update k₂.mem
      (cell pd 1022#32) (v2p k₂.kernelPageDirectory ||| 0x3#32)) (cell pd 1023#32)
      (v2p pd ||| 0x3#32)) = walkEntry pd w k₂.mem := fun w low =>
    (walk₄ w low).trans (walk₃ w low)
  refine ⟨fs, ?_⟩
  constructor
  case shape => exact shape₄
  case toFreshFrames =>
    have sameTaken := frameTaken_iff_of_bitmaps same
    refine ⟨by rw [pages.frames, made.frames], pages.sweeping,
      fun f out => pages.stillTaken f ((sameTaken f).mpr out), fun noErr => ?_⟩
    obtain ⟨nodup, isFresh⟩ := pages.fresh noErr
    exact ⟨nodup, fun f member => ⟨fun out => (isFresh f member).1 ((sameTaken f).mpr out),
      (isFresh f member).2⟩⟩
  case length => exact pages.length
  case mapped =>
    exact fun j f w found low inPage => (walk w low).trans (pages.mapped j f w found low inPage)
  case unmapped =>
    intro w low outside
    have before := made.unmapped w low (empty w low)
    exact (walk w low).trans ((pages.others w low outside).trans before)
  case present => exact fun bit => slots₄ (slots₃ (pages.present bit (made.present bit noSlots)))

/-! ### With room the construction returns -/

/-- `mm_alloc` has `n` more pages. -/
def HeapRoom (mm : Mm) (n : Nat) : Prop :=
  mm.mmHeap.toNat + 0x4000 * n < mm.mmHeapMax.toNat

theorem HeapRoom.mono {m : Nat} (room : HeapRoom mm n) (fewer : m ≤ n) :
    HeapRoom mm m := by
  rw [HeapRoom] at room ⊢
  omega

theorem mmAlloc_of_room (window : HeapWindow mm) (room : HeapRoom mm (n + 1)) :
    ∃ mm', mmAlloc 0x1000#32 mm = (mm.mmHeap, mm') ∧ mm.mmHeap ≠ null ∧ HeapRoom mm' n := by
  have inWindow := window.inWindow
  rw [HeapRoom] at room
  have heapSet : mm.mmHeap ≠ 0#32 := by
    intro zero
    rw [zero] at inWindow
    exact absurd inWindow (by decide)
  have moved : (mm.mmHeap + 4 * 0x1000#32).toNat = mm.mmHeap.toNat + 0x4000 := by
    simp only [BitVec.toNat_add, BitVec.toNat_mul, BitVec.ofNat_eq_ofNat, BitVec.toNat_ofNat]
    omega
  have free : mm.mmHeap + 4 * 0x1000#32 < mm.mmHeapMax := by
    rw [BitVec.lt_def, moved]
    linarith
  have rounded : 0x1000#32 &&& ~~~0xFFF#32 = 0x1000#32 := by decide
  refine ⟨{ mm with mmHeap := mm.mmHeap + 4 * 0x1000#32 }, ?_, heapSet, ?_⟩
  · rw [mmAlloc, if_neg heapSet, if_pos free, if_pos (by decide), rounded]
  · rw [HeapRoom]
    simp only
    omega

/-- A slot in use needs no table. -/
theorem Kernel.pagingMap_of_used (phys flags : U32) (used : InUse dir k.mem (pdiOf virt)) :
    ∃ k', k.pagingMap dir phys virt flags = some k' ∧ k'.mm = k.mm :=
  ⟨{ k with mem := Crunchy.pagingMap null dir phys virt flags k.mem }, if_pos used, rfl⟩

/-- With room in the heap a call returns, and needs one table at most. -/
theorem HeapWindow.pagingMap_of_room (window : HeapWindow k.mm) (dir phys virt flags : U32)
    (room : HeapRoom k.mm (n + 1)) :
    ∃ k', k.pagingMap dir phys virt flags = some k' ∧ HeapRoom k'.mm n := by
  by_cases used : InUse dir k.mem (pdiOf virt)
  · obtain ⟨k', returned, same⟩ := Kernel.pagingMap_of_used phys flags used
    exact ⟨k', returned, same ▸ room.mono (Nat.le_succ n)⟩
  · have unnamed : ¬ dirEntry dir virt k.mem &&& ~~~0x3FF#32 ≠ 0#32 := used
    obtain ⟨mm, allocated, served, left⟩ := mmAlloc_of_room window room
    refine ⟨{ k with mm, mem := pagingMap k.mm.mmHeap dir phys virt flags k.mem }, ?_, left⟩
    rw [Kernel.pagingMap, if_neg unnamed, allocated]
    exact if_neg served

/-- Both allocators have enough left: `k_page_alloc` the pages of its region from `n`
on, `mm_alloc` another `spare` pages; and no page was refused so far. -/
structure Plenty (region n spare : Nat) (k : Kernel) : Prop where
  swept : Swept k.mm region n
  positive : 1 ≤ region
  inRegion : region < 1024
  room : HeapRoom k.mm spare
  served : errNoMem ∉ k.frames

theorem Swept.of_bitmaps (swept : Swept mm region n)
    (same : mm'.mmCurrentPd = mm.mmCurrentPd ∧ mm'.mmCurrentPt = mm.mmCurrentPt) :
    Swept mm' region n := by
  refine ⟨⟨swept.current.bound, ?_⟩, ?_⟩
  · rw [same.1]
    exact swept.current.full
  · rw [same.2]
    exact swept.table

/-- While the allocator's region has pages left, `mapFresh` needs a table a page at
most, and no frame is the error value. -/
theorem mapFresh_returns (flags virt : U32) (window : HeapWindow k.mm)
    (plenty : Plenty region n (left + spare) k) (few : n + left ≤ 1024) :
    ∃ k', mapFresh dir flags left virt k = some k' ∧ Plenty region (n + left) spare k' := by
  induction left generalizing virt k n with
  | zero =>
    rw [Nat.zero_add] at plenty
    exact ⟨k, rfl, plenty⟩
  | succ left ih =>
    obtain ⟨swept, positive, inRegion, room, served⟩ := plenty
    obtain ⟨mm, returned, sweptOn, sameHeap, sameMax⟩ := swept.alloc inRegion (by omega)
    have allocated : k.pageAlloc = some (pageAddress region n,
        { k with mm, frames := pageAddress region n :: k.frames }) := by
      rw [Kernel.pageAlloc, returned]
      rfl
    have roomLeft : HeapRoom mm (left + spare + 1) := by
      rw [HeapRoom, sameHeap, sameMax]
      rw [HeapRoom] at room
      omega
    have window₁ : HeapWindow mm := (window.pageAlloc returned).1
    obtain ⟨k₁, mapped, room₁⟩ := HeapWindow.pagingMap_of_room
      (k := { k with mm, frames := pageAddress region n :: k.frames }) window₁
      dir (pageAddress region n) virt flags roomLeft
    obtain ⟨pt, step⟩ := HeapWindow.mapDone (by exact window₁) mapped
    have notErr : errNoMem ∉ k₁.frames := by
      rw [step.frames, mem_cons, not_or]
      exact ⟨(pageAddress_ne_errNoMem inRegion (by omega)).symm, served⟩
    obtain ⟨k', done, plentyLeft⟩ := ih (virt + 0x1000#32) step.window
      ⟨sweptOn.of_bitmaps step.bitmaps, positive, inRegion, room₁, notErr⟩ (by omega)
    refine ⟨k', ?_, by rwa [Nat.add_right_comm, Nat.add_assoc n left 1] at plentyLeft⟩
    rw [mapFresh, allocated, bind_eq_bind, bind_some]
    dsimp only
    rw [mapped]
    exact done

/-- Once the kernel's slot is in use, mapping the window needs no table. -/
theorem kMapKernelLoop_of_used (holds : DirShape pd k) (fits : i.toNat + left * 0x1000 ≤ 0x400000)
    (used : InUse pd k.mem 768#32) :
    ∃ k', kMapKernelLoop pd left i k = some k' ∧ k'.mm = k.mm := by
  induction left generalizing i k with
  | zero => exact ⟨k, rfl, rfl⟩
  | succ left ih =>
    have place : (i + kernelVirt).toNat = i.toNat + 0xC0000000 := toNat_add_ofNat (by omega)
    have kernelSlot : pdiOf (i + kernelVirt) = 768#32 := by
      apply BitVec.eq_of_toNat_eq
      rw [toNat_pdiOf, place, BitVec.toNat_ofNat]
      omega
    have low : LowSlot (i + kernelVirt) := lowSlot_of_lt (by omega)
    obtain ⟨k₁, mapped, same⟩ := Kernel.pagingMap_of_used i 3#32 (kernelSlot.symm ▸ used)
    have usedOn := holds.mapped_inUse (by decide) low mapped
    rw [kernelSlot] at usedOn
    have fitsOn : (i + 0x1000#32).toNat + left * 0x1000 ≤ 0x400000 := by
      rw [toNat_add_ofNat (by omega)]
      omega
    obtain ⟨k', done, sameOn⟩ := ih (holds.map (by decide) low mapped).1 fitsOn usedOn
    refine ⟨k', ?_, sameOn.trans same⟩
    rw [kMapKernelLoop, mapped, bind_eq_bind, bind_some, done]

theorem kMapKernel_returns (holds : DirShape pd k) (room : HeapRoom k.mm (spare + 1)) :
    ∃ k', kMapKernel pd k = some k' ∧ HeapRoom k'.mm spare := by
  have low : LowSlot (0#32 + kernelVirt) := by
    rw [LowSlot]
    decide
  obtain ⟨k₁, mapped, room₁⟩ := holds.window.pagingMap_of_room pd 0#32 (0#32 + kernelVirt)
    3#32 room
  have fits : (0#32 + 0x1000#32 : U32).toNat + 0x3FF * 0x1000 ≤ 0x400000 := by decide
  have used := holds.mapped_inUse (by decide) low mapped
  rw [show pdiOf (0#32 + kernelVirt) = 768#32 by decide] at used
  obtain ⟨k', done, same⟩ := kMapKernelLoop_of_used (holds.map (by decide) low mapped).1 fits used
  refine ⟨k', ?_, by rwa [same]⟩
  rw [kMapKernel, kMapKernelLoop, mapped, bind_eq_bind, bind_some, done]

/-- A range of at most 1024 pages, with that many pages left in the allocator's
region and room for a directory and a table a page. -/
theorem address_space_returns (virt numpages flags : U32) (fresh : FreshHeap k.mm k.mem)
    (small : flags.toNat < 0x400) (user : virt.toNat + numpages.toNat * 0x1000 ≤ 0xC0000000)
    (few : n + numpages.toNat ≤ 1024)
    (plenty : Plenty region n (numpages.toNat + (spare + 1) + 1) k) :
    ∃ pd created built, kCreatePagedir virt numpages flags k = some (pd, created) ∧
      kMapKernel pd created = some built ∧ Plenty region (n + numpages.toNat) spare built := by
  obtain ⟨swept, positive, inRegion, room, served⟩ := plenty
  have bitmaps := mmAlloc_bitmaps 0x1000#32 k.mm
  obtain ⟨mm, allocated, notNull, roomLeft⟩ := mmAlloc_of_room fresh.window room
  rw [allocated] at bitmaps
  obtain ⟨shape, _, _⟩ := fresh.directory allocated notNull
  have notMany : ¬ 1024#32 < numpages := by
    rw [BitVec.lt_def, BitVec.toNat_ofNat]
    omega
  obtain ⟨k₁, mapped, plenty₁⟩ := mapFresh_returns flags virt (k := { k with mm }) shape.window
    ⟨swept.of_bitmaps bitmaps, positive, inRegion, roomLeft, served⟩ few
  have create : ∃ mem, kCreatePagedir virt numpages flags k =
      some (k.mm.mmHeap, { k₁ with mem }) := by
    rw [kCreatePagedir, allocated]
    dsimp only
    rw [if_neg notNull, preallocate, if_neg notMany, bind_eq_bind, bind_some, mapped]
    exact ⟨_, rfl⟩
  obtain ⟨mem, create⟩ := create
  have sweeping : Sweeping k.mm := ⟨region, positive, swept.current⟩
  obtain ⟨fs, space⟩ := kCreatePagedir_spec fresh sweeping small user create
  obtain ⟨built, mapKernel, roomOn⟩ := kMapKernel_returns space.shape plenty₁.room
  have window := kMapKernelLoop_spec space.shape (by decide) (by decide) mapKernel
  refine ⟨_, _, built, create, mapKernel, plenty₁.swept.of_bitmaps window.bitmaps, positive,
    inRegion, roomOn, ?_⟩
  rw [window.frames]
  exact plenty₁.served

/-- The directory `k_create_pagedir` and `k_map_kernel` build from any state of the
page allocator: every page of the range has a frame of its own above the kernel's
4 MB, and the kernel window has those 4 MB. -/
theorem address_space_built {run : PageRun} (reached : pageSystem.Reachable run) {k : Kernel}
    (bitmaps : k.mm.mmCurrentPd = run.mm.mmCurrentPd ∧ k.mm.mmCurrentPt = run.mm.mmCurrentPt)
    (fresh : FreshHeap k.mm k.mem) (noFrames : k.frames = []) {virt numpages flags pd : U32}
    (small : flags.toNat < 0x400) (user : virt.toNat + numpages.toNat * 0x1000 ≤ 0xC0000000)
    {created built : Kernel} (create : kCreatePagedir virt numpages flags k = some (pd, created))
    (mapKernel : kMapKernel pd created = some built) (served : errNoMem ∉ built.frames) :
    (∃ fs : List U32, built.frames = fs.reverse ∧ fs.length = numpages.toNat ∧ fs.Nodup ∧
      (∀ f ∈ fs, 0x400000 ≤ f.toNat) ∧
      ∀ j f, fs[j]? = some f → virtToPhys pd (pageAbove virt j) built.mem = f ||| flags) ∧
    ∀ p : U32, p.toNat % 0x1000 = 0 → p.toNat < 0x400000 →
      virtToPhys pd (p + kernelVirt) built.mem = p ||| 3#32 := by
  have sweeping : Sweeping k.mm := (sweeping_of_reachable reached).of_bitmaps bitmaps.1
  obtain ⟨fs, space⟩ := kCreatePagedir_spec fresh sweeping small user create
  have window := kMapKernelLoop_spec space.shape (by decide) (by decide) mapKernel
  have frames : built.frames = fs.reverse := by
    rw [window.frames, space.frames, noFrames, List.append_nil]
  have noErr : errNoMem ∉ fs := by
    rw [frames, List.mem_reverse] at served
    exact served
  obtain ⟨nodup, isFresh⟩ := space.fresh noErr
  have high : ∀ f ∈ fs, 0x400000 ≤ f.toNat := fun f member => (isFresh f member).2.page.2
  constructor
  · refine ⟨fs, frames, space.length, nodup, high, fun j f found => ?_⟩
    have inside : j < numpages.toNat := by
      rw [← space.length]
      exact (List.getElem?_eq_some_iff.mp found).1
    have address : (pageAbove virt j).toNat = virt.toNat + j * 0x1000 :=
      toNat_pageAbove (by omega)
    have low : LowSlot (pageAbove virt j) := lowSlot_of_lt (by omega)
    have entry : walkEntry pd (pageAbove virt j) built.mem = f ||| flags := by
      rw [window.others _ (by rw [address, BitVec.toNat_ofNat]; omega)]
      exact space.mapped j f _ found low rfl
    rw [window.shape.virtToPhys_eq low, entry]
    intro zero
    rw [entry, BitVec.or_eq_zero_iff] at zero
    have positive := high f (List.mem_of_getElem? found)
    rw [zero.1] at positive
    exact absurd positive (by decide)
  · intro p aligned below
    have isPage : pageAbove 0#32 (p.toNat / 0x1000) = p := by
      apply BitVec.eq_of_toNat_eq
      rw [toNat_pageAbove (by rw [BitVec.toNat_ofNat]; omega), BitVec.toNat_ofNat]
      omega
    have entry := window.mapped (p.toNat / 0x1000) (by omega)
    rw [isPage] at entry
    have low : LowSlot (p + kernelVirt) := by
      apply lowSlot_of_lt
      rw [kernelVirt, BitVec.toNat_add, BitVec.toNat_ofNat]
      omega
    rw [window.shape.virtToPhys_eq low, entry]
    intro zero
    rw [entry, BitVec.or_eq_zero_iff] at zero
    exact absurd zero.2 (by decide)

/-- Two pages of a fresh kernel. -/
theorem two_page_space_built : ∃ (k : Kernel) (pd : U32) (created built : Kernel),
    kCreatePagedir 0x8048000#32 2#32 7#32 k = some (pd, created) ∧
      kMapKernel pd created = some built ∧
      (∃ fs : List U32, built.frames = fs.reverse ∧ fs.length = 2 ∧ fs.Nodup ∧
        (∀ f ∈ fs, 0x400000 ≤ f.toNat) ∧
        ∀ j f, fs[j]? = some f →
          virtToPhys pd (pageAbove 0x8048000#32 j) built.mem = f ||| 7#32) ∧
      ∀ p : U32, p.toNat % 0x1000 = 0 → p.toNat < 0x400000 →
        virtToPhys pd (p + kernelVirt) built.mem = p ||| 3#32 := by
  obtain ⟨mm, init, swept, heap, heapMax⟩ := boot_mm
  have fresh : FreshHeap mm (fun _ => 0#32) :=
    ⟨kMmInit_heapWindow (by decide) (by decide) (by decide) init, fun _ _ => rfl⟩
  have room : HeapRoom mm ((2#32 : U32).toNat + (0 + 1) + 1) := by
    rw [HeapRoom, heap, heapMax]
    decide
  obtain ⟨pd, created, built, create, mapKernel, plenty⟩ := address_space_returns
    0x8048000#32 2#32 7#32
    (k := { mm, mem := fun _ => 0#32, kernelPageDirectory := 0xC0101000#32,
            currentPageDirectory := 0xC0101000#32, frames := [] })
    fresh (by decide) (by decide) (by decide)
    ⟨swept, by decide, by decide, room, not_mem_nil⟩
  have reached : pageSystem.Reachable { mm, live := ∅ } := .start ⟨_, _, _, init, rfl⟩
  exact ⟨_, pd, created, built, create, mapKernel, address_space_built reached ⟨rfl, rfl⟩ fresh rfl
    (by decide) (by decide) create mapKernel plenty.served⟩

end Crunchy
