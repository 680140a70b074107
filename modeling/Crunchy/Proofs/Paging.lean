/-
Module: Crunchy.Proofs.Paging
Purpose: Page directories built by `_paging_map` and `_map_on_demand`. From one invariant follow
  what translation returns and what a mapping does to the pages around it.
Trusted boundary: none
Main exports: DirInvariant, translation_returns_last_mapping, mapping_keeps_other_pages_iff
-/
import Crunchy.Mem.Mm
import Crunchy.Mem.Paging
import Crunchy.Lib.Transition

namespace Crunchy

open Lib List Function

variable {mm mm' : Mm} {dir i other pt q v w : U32}

/-! ### Slots and pages -/

/-- Two addresses are in one page exactly when they have the same slots. -/
theorem pageOf_eq_iff_slots :
    pageOf v = pageOf w ↔ pdiOf v = pdiOf w ∧ ptiOf v = ptiOf w := by
  simp only [← BitVec.toNat_inj, pageOf, toNat_and_not_fff, toNat_pdiOf, toNat_ptiOf]
  omega

/-- An entry belongs to a page. -/
theorem walkEntry_of_page (mem : Memory) (same : pageOf v = pageOf w) :
    walkEntry dir v mem = walkEntry dir w mem := by
  obtain ⟨samePdi, samePti⟩ := pageOf_eq_iff_slots.mp same
  rw [walkEntry, walkEntry, dirEntry, dirEntry, samePdi, samePti]

/-- Every pair of slots belongs to some address. -/
theorem exists_address_with_slots (virt : U32) (inside : q.toNat < 1024) :
    ∃ v, pdiOf v = pdiOf virt ∧ ptiOf v = q := by
  refine ⟨BitVec.ofNat 32 (virt.toNat / 4194304 * 4194304 + q.toNat * 4096), ?_, ?_⟩
  · apply BitVec.eq_of_toNat_eq
    rw [toNat_pdiOf, toNat_pdiOf, BitVec.toNat_ofNat]
    omega
  · apply BitVec.eq_of_toNat_eq
    rw [toNat_ptiOf, BitVec.toNat_ofNat]
    omega

/-! ### Pages that hold page tables -/

/-- A page of the kernel window away from the directory `dir`. -/
structure WindowPage (dir page : U32) : Prop where
  aligned : page.toNat % 4096 = 0
  inWindow : kernelVirt ≤ page
  apart : Apart 1024 dir page

/-- A page that can hold a table of `dir`. The window's own first page cannot: it
is physical page 0, and a directory entry with that address reads as no table. -/
structure TablePage (dir page : U32) : Prop extends WindowPage dir page where
  notFirst : page ≠ kernelVirt

namespace TablePage

theorem fits {page : U32} (isTable : TablePage dir page) :
    page.toNat + 4 * 1024 ≤ 2 ^ 32 := by
  have aligned := isTable.aligned
  omega

theorem toNat_v2p {page : U32} (isTable : TablePage dir page) :
    (v2p page).toNat + 0xC0000000 = page.toNat ∧ 0 < (v2p page).toNat := by
  have inWindow := isTable.inWindow
  have notFirst : page.toNat ≠ kernelVirt.toNat := fun same =>
    isTable.notFirst (BitVec.eq_of_toNat_eq same)
  rw [v2p, if_pos inWindow]
  rw [kernelVirt, BitVec.le_def] at inWindow
  rw [kernelVirt] at notFirst
  rw [kernelVirt, BitVec.toNat_sub]
  simp only [BitVec.toNat_ofNat] at inWindow notFirst ⊢
  omega

/-- The directory entry of a table: its physical address with the flags in the
low bits. -/
theorem toNat_entry {page flags : U32} (isTable : TablePage dir page)
    (small : flags.toNat < 0x400) :
    (v2p page ||| flags).toNat = page.toNat - 0xC0000000 + flags.toNat := by
  obtain ⟨physical, _⟩ := isTable.toNat_v2p
  have aligned := isTable.aligned
  rw [toNat_or_of_aligned (k := 10) (by omega) (by simpa using small)]
  omega

/-- Masking the flags away and going back through `P2V` finds the table, whether
ten or twelve low bits are masked. -/
theorem p2v_entry {page flags : U32} (isTable : TablePage dir page) (small : flags.toNat < 0x400) :
    p2v ((v2p page ||| flags) &&& ~~~0x3FF#32) = page ∧
      p2v ((v2p page ||| flags) &&& ~~~0xFFF#32) = page := by
  have entry := isTable.toNat_entry small
  obtain ⟨physical, _⟩ := isTable.toNat_v2p
  have aligned := isTable.aligned
  have back : ∀ x : U32, x.toNat = page.toNat - 0xC0000000 → p2v x = page := by
    intro x value
    have low : x ≤ kernelVirt := by
      rw [kernelVirt, BitVec.le_def, BitVec.toNat_ofNat]
      omega
    rw [p2v, if_pos low]
    apply BitVec.eq_of_toNat_eq
    rw [kernelVirt, BitVec.toNat_add, BitVec.toNat_ofNat]
    omega
  constructor
  · apply back
    rw [toNat_and_not_3ff, entry]
    omega
  · apply back
    rw [toNat_and_not_fff, entry]
    omega

theorem entry_ne_zero {page flags : U32} (isTable : TablePage dir page)
    (small : flags.toNat < 0x400) :
    v2p page ||| flags ≠ 0#32 ∧ (v2p page ||| flags) &&& ~~~0x3FF#32 ≠ 0#32 := by
  have entry := isTable.toNat_entry small
  obtain ⟨physical, positive⟩ := isTable.toNat_v2p
  have aligned := isTable.aligned
  constructor
  · intro zero
    have value := congrArg BitVec.toNat zero
    rw [entry, BitVec.toNat_ofNat] at value
    omega
  · intro zero
    have value := congrArg BitVec.toNat zero
    rw [toNat_and_not_3ff, entry, BitVec.toNat_ofNat] at value
    omega

/-- The permission bits of a directory entry are those of the flags. -/
theorem entry_getLsbD {page flags : U32} (isTable : TablePage dir page) {b : Nat} (low : b < 3) :
    (v2p page ||| flags).getLsbD b = flags.getLsbD b := by
  obtain ⟨physical, _⟩ := isTable.toNat_v2p
  have aligned := isTable.aligned
  have clear : (v2p page).getLsbD b = false := by
    obtain ⟨q, multiple⟩ : 2 ^ 3 ∣ (v2p page).toNat := Nat.dvd_of_mod_eq_zero (by omega)
    rw [← BitVec.testBit_toNat, multiple, Nat.testBit_two_pow_mul]
    simp [Nat.not_le.mpr low]
  rw [BitVec.getLsbD_or, clear, Bool.false_or]

/-- Two table pages are the same page or do not overlap. -/
theorem apart_of_ne {page : U32} (isTable : TablePage dir page) (isOther : TablePage dir other)
    (differs : page ≠ other) : Apart 1024 page other := by
  have aligned := isTable.aligned
  have otherAligned := isOther.aligned
  have values : page.toNat ≠ other.toNat := fun same => differs (BitVec.eq_of_toNat_eq same)
  rw [Apart]
  omega

end TablePage

/-! ### One mapping

What `_paging_map` writes, given that the table it works on is a table page. -/

/-- The two words that `_paging_map` writes when it works on the table `pt`. -/
def mapWords (dir pt phys virt flags : U32) (mem : Memory) : Memory :=
  Function.update (Function.update mem (cell pt (ptiOf virt)) (phys ||| flags))
    (cell dir (pdiOf virt)) (v2p pt ||| flags)

section OneMapping

variable {a dir pt phys virt flags : U32} {mem : Memory}

/-- The directory entry names the table and carries the flags of this call. -/
theorem mapWords_dirEntry :
    mapWords dir pt phys virt flags mem (cell dir (pdiOf virt)) = v2p pt ||| flags :=
  update_self ..

/-- All other words stay. -/
theorem mapWords_other (notEntry : a ≠ cell pt (ptiOf virt)) (notSlot : a ≠ cell dir (pdiOf virt)) :
    mapWords dir pt phys virt flags mem a = mem a := by
  rw [mapWords, update_of_ne notSlot, update_of_ne notEntry]

variable (dirFits : dir.toNat + 4 * 1024 ≤ 2 ^ 32) (isTable : TablePage dir pt)
include dirFits isTable

/-- The table entry of the mapped page holds the frame and the flags. -/
theorem mapWords_entry :
    mapWords dir pt phys virt flags mem (cell pt (ptiOf virt)) = phys ||| flags := by
  have notDir : cell pt (ptiOf virt) ≠ cell dir (pdiOf virt) :=
    cell_ne_of_apart isTable.fits dirFits isTable.apart.symm (toNat_ptiOf_lt virt)
      (toNat_pdiOf_lt virt)
  rw [mapWords, update_of_ne notDir, update_self]

/-- Other directory slots stay. -/
theorem mapWords_otherSlot (inside : i.toNat < 1024) (other : i ≠ pdiOf virt) :
    mapWords dir pt phys virt flags mem (cell dir i) = mem (cell dir i) :=
  mapWords_other (cell_ne_of_apart dirFits isTable.fits isTable.apart inside (toNat_ptiOf_lt virt))
    fun same => other (cell_inj dirFits inside (toNat_pdiOf_lt virt) same)

/-- Other entries of this table and every entry of another table stay. -/
theorem mapWords_otherEntry {table : U32} (isOther : TablePage dir table) (inside : q.toNat < 1024)
    (other : table = pt → q ≠ ptiOf virt) :
    mapWords dir pt phys virt flags mem (cell table q) = mem (cell table q) := by
  refine mapWords_other ?_ (cell_ne_of_apart isOther.fits dirFits isOther.apart.symm inside
    (toNat_pdiOf_lt virt))
  by_cases same : table = pt
  · subst same
    exact fun sameCell => other rfl (cell_inj isOther.fits inside (toNat_ptiOf_lt virt) sameCell)
  · exact cell_ne_of_apart isOther.fits isTable.fits (isOther.apart_of_ne isTable same) inside
      (toNat_ptiOf_lt virt)

end OneMapping

/-! ### Runs of mapping calls -/

/-- The calls a directory is built by. -/
inductive DirCall where
  | map (phys virt flags : U32)
  | onDemand (virt flags : U32)

namespace DirCall

/-- The virtual address the call maps. -/
def virt : DirCall → U32
  | .map _ virt _ | .onDemand virt _ => virt

/-- The flags the caller passes. -/
def flags : DirCall → U32
  | .map _ _ flags | .onDemand _ flags => flags

/-- The flags that reach `_paging_map`. -/
def mapFlags : DirCall → U32
  | .map _ _ flags => flags
  | .onDemand _ flags => flags &&& ~~~pfPresent ||| 0x200#32

/-- The frame that reaches `_paging_map`. -/
def phys : DirCall → U32
  | .map phys _ _ => phys
  | .onDemand _ _ => 0xDEAD0000#32

/-- Make the call on the directory `dir`; `page` is what `mm_alloc` would return. -/
def perform (page dir : U32) : DirCall → Memory → Memory
  | .map phys virt flags => pagingMap page dir phys virt flags
  | .onDemand virt flags => mapOnDemand page dir virt flags

theorem perform_eq (call : DirCall) (page dir : U32) (mem : Memory) :
    call.perform page dir mem =
      mapWords dir (tableFor page dir call.virt mem) call.phys call.virt call.mapFlags mem := by
  cases call <;> rfl

theorem mapFlags_lt {call : DirCall} (small : call.flags.toNat < 0x400) :
    call.mapFlags.toNat < 0x400 := by
  cases call with
  | map => exact small
  | onDemand virt flags =>
    have cleared : (flags &&& ~~~pfPresent).toNat < 2 ^ 10 := by
      rw [BitVec.toNat_and]
      exact Nat.lt_of_le_of_lt Nat.and_le_left small
    simp only [mapFlags, BitVec.toNat_or]
    exact Nat.or_lt_two_pow cleared (by decide)

end DirCall

/-- A directory under construction: memory, the pages that hold its tables, and
the calls made so far, oldest first. -/
structure DirRun where
  mem : Memory
  tables : Set U32
  calls : List DirCall

/-- The run after one more call, `page` being what `mm_alloc` would return. -/
@[simps]
def DirRun.after (dir page : U32) (call : DirCall) (run : DirRun) : DirRun where
  mem := call.perform page dir run.mem
  tables := { pt | pt ∈ run.tables ∨ pt = tableFor page dir call.virt run.mem }
  calls := run.calls ++ [call]

/-- One call with flags below `0x400`. Where it needs a table, `mm_alloc` returns
one of the pages `Supply` allows, which holds no table of this directory yet. -/
inductive DirStep (Supply : U32 → U32 → Prop) (dir : U32) :
    DirRun → DirCall × U32 → DirRun → Prop where
  | call {run : DirRun} {call : DirCall} {page : U32} (small : call.flags.toNat < 0x400)
      (fresh : dirEntry dir call.virt run.mem &&& ~~~0x3FF#32 = 0#32 →
        Supply dir page ∧ page ∉ run.tables) :
      DirStep Supply dir run (call, page) (run.after dir page call)

/-- Directories built by mapping calls from an all-zero one. -/
def dirSystem (Supply : U32 → U32 → Prop) (dir : U32) : System DirRun (DirCall × U32) where
  Start run := (∀ i, i.toNat < 1024 → run.mem (cell dir i) = 0#32) ∧ run.tables = ∅ ∧
    run.calls = []
  Step := DirStep Supply dir

/-- Slot `i` of the directory names the table `pt`. -/
def NamesTable (dir : U32) (mem : Memory) (i pt : U32) : Prop :=
  ∃ flags, flags.toNat < 0x400 ∧ mem (cell dir i) = v2p pt ||| flags

/-- The shape of a directory: a slot is empty or names a table page, and no two
slots name the same one. -/
structure DirInvariant (dir : U32) (run : DirRun) : Prop where
  tablePage : ∀ pt ∈ run.tables, TablePage dir pt
  slot : ∀ i, i.toNat < 1024 → run.mem (cell dir i) = 0#32 ∨
    ∃ pt ∈ run.tables, NamesTable dir run.mem i pt
  oneSlot : ∀ i j pt, i.toNat < 1024 → j.toNat < 1024 → pt ∈ run.tables →
    NamesTable dir run.mem i pt → NamesTable dir run.mem j pt → i = j

namespace NamesTable

variable {dir i pt : U32} {mem : Memory}

/-- A slot that names a table is not empty, and masking finds the table. -/
theorem spec (names : NamesTable dir mem i pt) (isTable : TablePage dir pt) :
    mem (cell dir i) ≠ 0#32 ∧ mem (cell dir i) &&& ~~~0x3FF#32 ≠ 0#32 ∧
      p2v (mem (cell dir i) &&& ~~~0x3FF#32) = pt ∧
      p2v (mem (cell dir i) &&& ~~~0xFFF#32) = pt := by
  obtain ⟨flags, small, entry⟩ := names
  rw [entry]
  exact ⟨(isTable.entry_ne_zero small).1, (isTable.entry_ne_zero small).2,
    (isTable.p2v_entry small).1, (isTable.p2v_entry small).2⟩

theorem unique (names : NamesTable dir mem i pt) (isTable : TablePage dir pt)
    (namesOther : NamesTable dir mem i other) (isOther : TablePage dir other) : pt = other :=
  (names.spec isTable).2.2.1.symm.trans (namesOther.spec isOther).2.2.1

end NamesTable

theorem walkEntry_of_names {mem : Memory} (isTable : TablePage dir pt)
    (names : NamesTable dir mem (pdiOf v) pt) :
    walkEntry dir v mem = mem (cell pt (ptiOf v)) := by
  obtain ⟨nonzero, _, _, found⟩ := names.spec isTable
  have notZero : dirEntry dir v mem ≠ 0#32 := nonzero
  rw [walkEntry, if_neg notZero, dirEntry, found]

theorem walkEntry_of_empty {mem : Memory} (empty : dirEntry dir v mem = 0#32) :
    walkEntry dir v mem = 0#32 := by
  rw [walkEntry, if_pos empty]

/-- The first `n` slots of a directory: each is empty or names one of the pages `Table`, and
no two name the same one. -/
structure NamedSlots (n : Nat) (dir : U32) (mem : Memory) (Table : U32 → Prop) : Prop where
  tablePage : ∀ pt, Table pt → TablePage dir pt
  slot : ∀ i, i.toNat < n → mem (cell dir i) = 0#32 ∨ ∃ pt, Table pt ∧ NamesTable dir mem i pt
  oneSlot : ∀ i j pt, i.toNat < n → j.toNat < n → Table pt →
    NamesTable dir mem i pt → NamesTable dir mem j pt → i = j

namespace NamedSlots

variable {n : Nat} {dir pt s : U32} {mem mem' : Memory} {Table Table' : U32 → Prop}

/-- One slot gets a table that no other slot names, the other slots stay. -/
theorem set (holds : NamedSlots n dir mem Table) (tablePage : ∀ pt, Table' pt → TablePage dir pt)
    (kept : ∀ pt, Table pt → Table' pt) (own : s.toNat < n → Table' pt ∧ NamesTable dir mem' s pt)
    (otherSlot : ∀ i, i.toNat < n → i ≠ s → mem' (cell dir i) = mem (cell dir i))
    (otherTable : ∀ i other, i.toNat < n → i ≠ s → Table other → NamesTable dir mem i other →
      other ≠ pt) : NamedSlots n dir mem' Table' := by
  have before : ∀ i other, i.toNat < n → i ≠ s → Table' other → NamesTable dir mem' i other →
      Table other ∧ NamesTable dir mem i other ∧ other ≠ pt := by
    rintro i other inside differs isTable ⟨flags, small, value⟩
    rw [otherSlot i inside differs] at value
    have names : NamesTable dir mem i other := ⟨flags, small, value⟩
    rcases holds.slot i inside with empty | ⟨old, wasTable, oldNames⟩
    · exact absurd empty (names.spec (tablePage other isTable)).1
    · cases names.unique (tablePage other isTable) oldNames (holds.tablePage old wasTable)
      exact ⟨wasTable, names, otherTable i _ inside differs wasTable names⟩
  refine ⟨tablePage, fun i inside => ?_, fun i j other iInside jInside isTable iNames jNames => ?_⟩
  · by_cases isSlot : i = s
    · subst isSlot
      exact Or.inr ⟨pt, own inside⟩
    · rcases holds.slot i inside with empty | ⟨old, wasTable, flags, small, value⟩
      · exact Or.inl ((otherSlot i inside isSlot).trans empty)
      · exact Or.inr ⟨old, kept old wasTable, flags, small, (otherSlot i inside isSlot).trans value⟩
  · by_cases iSlot : i = s
    · by_cases jSlot : j = s
      · rw [iSlot, jSlot]
      · subst iSlot
        obtain ⟨isOwn, names⟩ := own iInside
        exact absurd (iNames.unique (tablePage other isTable) names (tablePage pt isOwn))
          (before j other jInside jSlot isTable jNames).2.2
    · obtain ⟨wasTable, iOld, differs⟩ := before i other iInside iSlot isTable iNames
      by_cases jSlot : j = s
      · subst jSlot
        obtain ⟨isOwn, names⟩ := own jInside
        exact absurd (jNames.unique (tablePage other isTable) names (tablePage pt isOwn)) differs
      · exact holds.oneSlot i j other iInside jInside wasTable iOld
          (before j other jInside jSlot isTable jNames).2.1

/-- All slots stay. -/
theorem congr (holds : NamedSlots n dir mem Table) (few : n ≤ 1024)
    (tablePage : ∀ pt, Table' pt → TablePage dir pt) (kept : ∀ pt, Table pt → Table' pt)
    (slots : ∀ i, i.toNat < n → mem' (cell dir i) = mem (cell dir i)) :
    NamedSlots n dir mem' Table' := by
  have own : (1024#32).toNat < n → Table' null ∧ NamesTable dir mem' 1024#32 null := fun inside =>
    absurd inside (Nat.not_lt.mpr few)
  refine holds.set tablePage kept own (fun i inside _ => slots i inside) ?_
  rintro i other inside _ isTable - rfl
  exact absurd (holds.tablePage null isTable).inWindow (by decide)

/-- The walk finds the same where the slot and the entry of its table stay. -/
theorem walk_congr (holds : NamedSlots n dir mem Table) (low : (pdiOf w).toNat < n)
    (slot : mem' (cell dir (pdiOf w)) = mem (cell dir (pdiOf w)))
    (entry : ∀ pt, Table pt → NamesTable dir mem (pdiOf w) pt →
      mem' (cell pt (ptiOf w)) = mem (cell pt (ptiOf w))) :
    walkEntry dir w mem' = walkEntry dir w mem := by
  rcases holds.slot (pdiOf w) low with empty | ⟨pt, isTable, names⟩
  · rw [walkEntry_of_empty empty, walkEntry_of_empty (slot.trans empty)]
  · have isPage := holds.tablePage pt isTable
    have after : NamesTable dir mem' (pdiOf w) pt := by
      obtain ⟨flags, small, value⟩ := names
      exact ⟨flags, small, slot.trans value⟩
    rw [walkEntry_of_names isPage names, walkEntry_of_names isPage after, entry pt isTable names]

end NamedSlots

namespace DirInvariant

variable {dir : U32} {run : DirRun} {call : DirCall} {page : U32}

theorem start (isStart : (dirSystem TablePage dir).Start run) : DirInvariant dir run := by
  obtain ⟨empty, noTables, _⟩ := isStart
  refine ⟨by simp [noTables], fun i inside => Or.inl (empty i inside), ?_⟩
  intro i j pt _ _ isTable
  simp [noTables] at isTable

theorem slots (holds : DirInvariant dir run) : NamedSlots 1024 dir run.mem (· ∈ run.tables) :=
  ⟨holds.tablePage, holds.slot, holds.oneSlot⟩

variable (holds : DirInvariant dir run) (dirFits : dir.toNat + 4 * 1024 ≤ 2 ^ 32)
  (small : call.flags.toNat < 0x400)
  (fresh : dirEntry dir call.virt run.mem &&& ~~~0x3FF#32 = 0#32 →
    TablePage dir page ∧ page ∉ run.tables)

section Call

include holds fresh

/-- The table a call works on: the one its slot names, or a fresh page where the
slot is empty. -/
theorem tableFor_cases :
    (tableFor page dir call.virt run.mem ∈ run.tables ∧
      NamesTable dir run.mem (pdiOf call.virt) (tableFor page dir call.virt run.mem)) ∨
    (dirEntry dir call.virt run.mem = 0#32 ∧
      tableFor page dir call.virt run.mem ∉ run.tables ∧
      TablePage dir (tableFor page dir call.virt run.mem)) := by
  rcases holds.slot (pdiOf call.virt) (toNat_pdiOf_lt _) with empty | ⟨pt, member, names⟩
  · have masked : dirEntry dir call.virt run.mem &&& ~~~0x3FF#32 = 0#32 := by
      rw [dirEntry, empty]
      rfl
    have isPage : tableFor page dir call.virt run.mem = page := by
      rw [tableFor, if_neg (not_not.mpr masked)]
    rw [isPage]
    exact Or.inr ⟨empty, (fresh masked).2, (fresh masked).1⟩
  · obtain ⟨_, nonzero, found, _⟩ := names.spec (holds.tablePage pt member)
    have isTable : tableFor page dir call.virt run.mem = pt := by
      rw [tableFor, dirEntry, if_pos nonzero, found]
    rw [isTable]
    exact Or.inl ⟨member, names⟩

theorem tableFor_tablePage : TablePage dir (tableFor page dir call.virt run.mem) := by
  rcases holds.tableFor_cases fresh with ⟨member, _⟩ | ⟨_, _, isTable⟩
  · exact holds.tablePage _ member
  · exact isTable

/-- The table of another slot is never the one the call works on. -/
theorem other_table_ne (inside : i.toNat < 1024) (other : i ≠ pdiOf call.virt)
    (member : pt ∈ run.tables) (names : NamesTable dir run.mem i pt) :
    pt ≠ tableFor page dir call.virt run.mem := by
  intro same
  rcases holds.tableFor_cases fresh with ⟨_, namesSlot⟩ | ⟨_, notMember, _⟩
  · rw [← same] at namesSlot
    exact other (holds.oneSlot i _ pt inside (toNat_pdiOf_lt _) member names namesSlot)
  · exact notMember (same ▸ member)

include dirFits

theorem otherSlot (inside : i.toNat < 1024) (other : i ≠ pdiOf call.virt) :
    call.perform page dir run.mem (cell dir i) = run.mem (cell dir i) := by
  rw [call.perform_eq]
  exact mapWords_otherSlot dirFits (holds.tableFor_tablePage fresh) inside other

theorem otherEntry (isPt : TablePage dir pt)
    (other : pt = tableFor page dir call.virt run.mem → ptiOf v ≠ ptiOf call.virt) :
    call.perform page dir run.mem (cell pt (ptiOf v)) = run.mem (cell pt (ptiOf v)) := by
  rw [call.perform_eq]
  exact mapWords_otherEntry dirFits (holds.tableFor_tablePage fresh) isPt (toNat_ptiOf_lt v) other

end Call

theorem ownSlot (call : DirCall) (page dir : U32) (mem : Memory) :
    call.perform page dir mem (cell dir (pdiOf call.virt)) =
      v2p (tableFor page dir call.virt mem) ||| call.mapFlags := by
  rw [call.perform_eq]
  exact mapWords_dirEntry

include holds dirFits small fresh in
/-- Making a call keeps the directory's shape. -/
theorem perform : DirInvariant dir (run.after dir page call) := by
  have tablePage : ∀ pt, pt ∈ (run.after dir page call).tables → TablePage dir pt := by
    rintro pt (old | rfl)
    · exact holds.tablePage pt old
    · exact holds.tableFor_tablePage fresh
  have after : NamedSlots 1024 dir (run.after dir page call).mem
      (· ∈ (run.after dir page call).tables) :=
    holds.slots.set (s := pdiOf call.virt) tablePage (fun _ => Or.inl)
      (fun _ => ⟨Or.inr rfl, call.mapFlags, DirCall.mapFlags_lt small, ownSlot ..⟩)
      (fun i => holds.otherSlot dirFits fresh) (fun i pt => holds.other_table_ne fresh)
  exact ⟨after.tablePage, after.slot, after.oneSlot⟩

theorem of_reachable (dirFits : dir.toNat + 4 * 1024 ≤ 2 ^ 32)
    (reached : (dirSystem TablePage dir).Reachable run) : DirInvariant dir run := by
  refine reached.invariant (DirInvariant dir) (fun _ => start) ?_
  intro before event after holds taken
  change DirStep TablePage dir before event after at taken
  cases taken with
  | call small fresh => exact holds.perform dirFits small fresh

end DirInvariant

/-! ### The kernel's own `mm_alloc`

The assumption on fresh pages is met by the allocator the kernel links: the heap
of `mm_alloc` starts on a page above the kernel and hands out ascending pages. -/

/-- Where the unfreeable heap stands: on a page boundary above the window's first
page, with the limit far enough from the end of the address space. -/
structure HeapWindow (mm : Mm) : Prop where
  aligned : mm.mmHeap.toNat % 4096 = 0
  inWindow : kernelVirt < mm.mmHeap
  bounded : mm.mmHeap.toNat ≤ 0xFFFF4000
  limit : mm.mmHeapMax.toNat ≤ 0xFFFF0000

/-- A request of at most a page that is served moves the heap up by four pages. -/
theorem HeapWindow.alloc {n page : U32} (window : HeapWindow mm) (small : n ≤ 0x1000#32)
    (done : mmAlloc n mm = (page, mm')) (served : page ≠ null) :
    HeapWindow mm' ∧ page = mm.mmHeap ∧ mm'.mmHeap.toNat = mm.mmHeap.toNat + 0x4000 := by
  have bounded := window.bounded
  have limit := window.limit
  have aligned := window.aligned
  have inWindow := window.inWindow
  rw [BitVec.lt_def] at inWindow
  rw [mmAlloc] at done
  split at done
  · cases done
    exact absurd rfl served
  · split at done
    · rename_i room
      -- both branches move the heap by four pages
      have moved : (page, mm') = (mm.mmHeap, { mm with mmHeap := mm.mmHeap + 0x4000#32 }) := by
        rw [← done]
        split
        · rename_i large
          rw [BitVec.le_antisymm small large]
          rfl
        · rfl
      cases moved
      have value : (mm.mmHeap + 0x4000#32).toNat = mm.mmHeap.toNat + 0x4000 :=
        toNat_add_ofNat (by omega)
      refine ⟨⟨?_, ?_, ?_, limit⟩, rfl, value⟩
      · rw [value]
        omega
      · rw [BitVec.lt_def, value]
        omega
      · rw [value]
        rw [BitVec.lt_def, BitVec.toNat_add, BitVec.toNat_mul] at room
        rw [BitVec.le_def] at small
        simp only [BitVec.ofNat_eq_ofNat, BitVec.toNat_ofNat] at room small
        omega
    · cases done
      exact absurd rfl served

/-- The bitmaps play no part in it. -/
theorem HeapWindow.withBitmaps (window : HeapWindow mm) (pd pt : Words 32) :
    HeapWindow { mm with mmCurrentPd := pd, mmCurrentPt := pt } :=
  ⟨window.aligned, window.inWindow, window.bounded, window.limit⟩

theorem HeapWindow.bitmapInit {b : Words 32} (window : HeapWindow mm)
    (fresh : mmBitmapInit mm = some (b, mm')) :
    HeapWindow mm' ∧ mm.mmHeap.toNat ≤ mm'.mmHeap.toNat := by
  simp only [mmBitmapInit] at fresh
  split at fresh
  · cases fresh
  · rename_i served
    cases fresh
    obtain ⟨window', _, moved⟩ := window.alloc (by decide) rfl served
    exact ⟨window', Nat.le.intro moved.symm⟩

/-- Page allocation keeps it, and the heap never moves down. -/
theorem HeapWindow.pageAlloc {depth : Nat} {page : U32} (window : HeapWindow mm)
    (returned : mmPageAllocDepth depth mm = some (page, mm')) :
    HeapWindow mm' ∧ mm.mmHeap.toNat ≤ mm'.mmHeap.toNat := by
  induction depth generalizing mm with
  | zero => cases returned
  | succ depth ih =>
    simp only [mmPageAllocDepth] at returned
    split at returned
    · cases returned
      exact ⟨window.withBitmaps _ _, Nat.le_refl _⟩
    · split at returned
      · cases swap : mmBitmapInit mm with
        | none => simp [swap] at returned
        | some result =>
          rw [swap] at returned
          obtain ⟨window', moved⟩ := window.bitmapInit swap
          obtain ⟨window'', movedOn⟩ :=
            ih (window'.withBitmaps _ _) returned
          exact ⟨window'', Nat.le_trans moved movedOn⟩
      · cases returned
        exact ⟨window, Nat.le_refl _⟩

/-- `k_mm_init` with a heap in the kernel window starts it so. -/
theorem kMmInit_heapWindow {heap heapMax first : U32} (inWindow : kernelVirt ≤ heap)
    (bounded : heap.toNat < 0xFFFF0000) (limit : heapMax.toNat ≤ 0xFFFF0000)
    (init : kMmInit heap heapMax = some (first, mm)) : HeapWindow mm := by
  rw [kMmInit] at init
  obtain ⟨⟨pd, one⟩, freshPd, init⟩ := Option.bind_eq_some_iff.mp init
  obtain ⟨⟨pt, two⟩, freshPt, init⟩ := Option.bind_eq_some_iff.mp init
  have rounded : ((heap + 0x1000#32) &&& ~~~0xFFF#32).toNat =
      (heap.toNat + 4096) / 4096 * 4096 := by
    rw [toNat_and_not_fff, BitVec.toNat_add, BitVec.toNat_ofNat]
    omega
  rw [kernelVirt, BitVec.le_def, BitVec.toNat_ofNat] at inWindow
  have started : HeapWindow
      { mmHeap := (heap + 0x1000#32) &&& ~~~0xFFF#32, mmHeapMax := heapMax,
        mmCurrentPd := fun _ => 0#32, mmCurrentPt := fun _ => 0#32 } := by
    refine ⟨?_, ?_, ?_, limit⟩
    · rw [rounded]
      omega
    · rw [BitVec.lt_def, rounded, kernelVirt, BitVec.toNat_ofNat]
      omega
    · rw [rounded]
      omega
  obtain ⟨first, _⟩ := started.bitmapInit freshPd
  obtain ⟨second, _⟩ := first.bitmapInit freshPt
  exact ((second.withBitmaps _ _).pageAlloc init).1

/-! ### A small directory -/

/-- Nothing mapped yet, in cleared memory. -/
def emptyRun : DirRun := { mem := fun _ => 0#32, tables := ∅, calls := [] }

/-- Page 0 mapped writable in an empty directory at `0xC0101000`, with the page
table at `0xC0105000`. -/
def onePage : DirRun :=
  emptyRun.after 0xC0101000#32 0xC0105000#32 (.map 0x5000#32 0#32 3#32)

theorem reachable_onePage : (dirSystem TablePage 0xC0101000#32).Reachable onePage := by
  have started : (dirSystem TablePage 0xC0101000#32).Reachable emptyRun :=
    System.Reachable.start ⟨fun _ _ => rfl, rfl, rfl⟩
  have isTable : TablePage 0xC0101000#32 0xC0105000#32 :=
    ⟨⟨by decide, by decide, by rw [Apart]; decide⟩, by decide⟩
  exact started.step (DirStep.call (by decide) fun _ => ⟨isTable, id⟩)

/-! ### Translation returns the last mapping -/

/-- The last call that mapped the page of `v`. -/
def lastCall (calls : List DirCall) (v : U32) : Option DirCall :=
  calls.reverse.find? fun call => pageOf call.virt = pageOf v

theorem lastCall_snoc (calls : List DirCall) (call : DirCall) (v : U32) :
    lastCall (calls ++ [call]) v =
      if pageOf call.virt = pageOf v then some call else lastCall calls v := by
  simp only [lastCall, reverse_append, reverse_singleton, singleton_append, find?_cons]
  by_cases same : pageOf call.virt = pageOf v <;> simp [same]

theorem lastCall_of_split {calls before after : List DirCall} {call : DirCall}
    (split : calls = before ++ call :: after) (inPage : pageOf call.virt = pageOf v)
    (last : ∀ later ∈ after, pageOf later.virt ≠ pageOf v) : lastCall calls v = some call := by
  have noLater : after.reverse.find? (fun later => pageOf later.virt = pageOf v) = none := by
    rw [find?_eq_none]
    intro later member
    simpa using last later (mem_reverse.mp member)
  rw [lastCall, split, reverse_append, reverse_cons, append_assoc, find?_append, noLater]
  simp [inPage]

/-- Every page mapped so far still has, in the table its slot names, the entry its
last mapping wrote. -/
def KeepsLastMappings (dir : U32) (run : DirRun) : Prop :=
  ∀ v call, lastCall run.calls v = some call → ∃ pt ∈ run.tables,
    NamesTable dir run.mem (pdiOf v) pt ∧
      run.mem (cell pt (ptiOf v)) = call.phys ||| call.mapFlags

theorem KeepsLastMappings.perform {page : U32} {run : DirRun} {call : DirCall}
    (keeps : KeepsLastMappings dir run) (holds : DirInvariant dir run)
    (dirFits : dir.toNat + 4 * 1024 ≤ 2 ^ 32) (small : call.flags.toNat < 0x400)
    (fresh : dirEntry dir call.virt run.mem &&& ~~~0x3FF#32 = 0#32 →
      TablePage dir page ∧ page ∉ run.tables) :
    KeepsLastMappings dir (run.after dir page call) := by
  have slot := DirInvariant.ownSlot call page dir run.mem
  intro v lastly isLast
  simp only [DirRun.after_calls, lastCall_snoc] at isLast
  split at isLast
  · -- the page just mapped
    rename_i samePage
    cases isLast
    obtain ⟨samePdi, samePti⟩ := pageOf_eq_iff_slots.mp samePage
    refine ⟨_, Or.inr rfl, ⟨call.mapFlags, DirCall.mapFlags_lt small, ?_⟩, ?_⟩
    · rw [← samePdi]
      exact slot
    · rw [← samePti, DirRun.after_mem, call.perform_eq]
      exact mapWords_entry dirFits (holds.tableFor_tablePage fresh)
  · rename_i otherPage
    obtain ⟨pt, member, names, entry⟩ := keeps v lastly isLast
    have isPt := holds.tablePage pt member
    by_cases samePdi : pdiOf v = pdiOf call.virt
    · -- another page of the same region: its table is the one in use
      have otherPti : ptiOf v ≠ ptiOf call.virt := fun samePti =>
        otherPage (pageOf_eq_iff_slots.mpr ⟨samePdi.symm, samePti.symm⟩)
      have sameTable : pt = tableFor page dir call.virt run.mem := by
        rcases holds.tableFor_cases fresh with ⟨inTables, namesSlot⟩ | ⟨empty, _, _⟩
        · rw [samePdi] at names
          exact names.unique isPt namesSlot (holds.tablePage _ inTables)
        · rw [samePdi] at names
          exact absurd empty (names.spec isPt).1
      refine ⟨pt, Or.inl member, ⟨call.mapFlags, DirCall.mapFlags_lt small, ?_⟩, ?_⟩
      · rw [samePdi, sameTable]
        exact slot
      · rw [DirRun.after_mem, ← entry]
        exact holds.otherEntry dirFits fresh isPt fun _ => otherPti
    · obtain ⟨flags, low, named⟩ := names
      refine ⟨pt, Or.inl member, ⟨flags, low, ?_⟩, ?_⟩
      · rw [DirRun.after_mem, ← named]
        exact holds.otherSlot dirFits fresh (toNat_pdiOf_lt v) samePdi
      · rw [DirRun.after_mem, ← entry]
        exact holds.otherEntry dirFits fresh isPt fun same =>
          absurd same (holds.other_table_ne fresh (toNat_pdiOf_lt v) samePdi member
            ⟨flags, low, named⟩)

theorem KeepsLastMappings.of_reachable {run : DirRun} (dirFits : dir.toNat + 4 * 1024 ≤ 2 ^ 32)
    (reached : (dirSystem TablePage dir).Reachable run) :
    DirInvariant dir run ∧ KeepsLastMappings dir run := by
  refine reached.invariant (fun run => DirInvariant dir run ∧ KeepsLastMappings dir run) ?_ ?_
  · intro run isStart
    refine ⟨DirInvariant.start isStart, fun v call isLast => ?_⟩
    simp [isStart.2.2, lastCall] at isLast
  · rintro before event after ⟨holds, keeps⟩ taken
    change DirStep TablePage dir before event after at taken
    cases taken with
    | call small fresh =>
      exact ⟨holds.perform dirFits small fresh, keeps.perform holds dirFits small fresh⟩

/-- The guard of `_virt_to_phys` never fires, so it reads the entry of the table
the slot names. -/
theorem virtToPhys_of_names {mem : Memory} (isTable : TablePage dir pt)
    (names : NamesTable dir mem (pdiOf v) pt) :
    virtToPhys dir v mem = mem (cell pt (ptiOf v)) := by
  obtain ⟨nonzero, _, found, _⟩ := names.spec isTable
  have notZero : dirEntry dir v mem ≠ 0#32 := nonzero
  simp only [virtToPhys, if_neg notZero]
  rw [if_neg (by simp), dirEntry, found]

/-- After any sequence of mapping calls on an all-zero directory, translating an
address of a mapped page gives the frame and flags of the last call that mapped
the page. -/
theorem translation_returns_last_mapping {dir : U32} {run : DirRun}
    (dirFits : dir.toNat + 4 * 1024 ≤ 2 ^ 32) (reached : (dirSystem TablePage dir).Reachable run)
    {before after : List DirCall} {phys virt flags v : U32}
    (split : run.calls = before ++ .map phys virt flags :: after)
    (inPage : pageOf virt = pageOf v)
    (last : ∀ later ∈ after, pageOf later.virt ≠ pageOf v) :
    virtToPhys dir v run.mem = phys ||| flags := by
  obtain ⟨holds, keeps⟩ := KeepsLastMappings.of_reachable dirFits reached
  obtain ⟨pt, member, names, entry⟩ := keeps v _ (lastCall_of_split split inPage last)
  rw [virtToPhys_of_names (holds.tablePage pt member) names, entry]
  rfl

/-- Page 0 translates to its frame and flags after its neighbour has been mapped
with flags of its own. -/
theorem neighbour_mapped_later :
    virtToPhys 0xC0101000#32 0x123#32
      (onePage.after 0xC0101000#32 0#32 (.map 0x6000#32 0x1000#32 1#32)).mem =
        0x5000#32 ||| 3#32 := by
  have inUse : dirEntry 0xC0101000#32 0x1000#32 onePage.mem &&& ~~~0x3FF#32 ≠ 0#32 := by decide
  have reached : (dirSystem TablePage 0xC0101000#32).Reachable
      (onePage.after 0xC0101000#32 0#32 (.map 0x6000#32 0x1000#32 1#32)) :=
    reachable_onePage.step (DirStep.call (by decide) fun unused => absurd unused inUse)
  have split : (onePage.after 0xC0101000#32 0#32 (.map 0x6000#32 0x1000#32 1#32)).calls =
      [] ++ .map 0x5000#32 0#32 3#32 :: [.map 0x6000#32 0x1000#32 1#32] := rfl
  exact translation_returns_last_mapping (by decide) reached split (by decide) (by decide)

/-- With a table in the first page of the window the translation is lost: the
directory entry then holds the flags alone, which the next call in the region
takes for no table. -/
theorem table_in_first_window_page_lost :
    ¬ ∀ (dir : U32) (run : DirRun), dir.toNat + 4 * 1024 ≤ 2 ^ 32 →
      (dirSystem WindowPage dir).Reachable run →
      ∀ (before after : List DirCall) (phys virt flags v : U32),
        run.calls = before ++ .map phys virt flags :: after → pageOf virt = pageOf v →
        (∀ later ∈ after, pageOf later.virt ≠ pageOf v) →
        virtToPhys dir v run.mem = phys ||| flags := by
  intro lastMapping
  have started : (dirSystem WindowPage 0xC0101000#32).Reachable emptyRun :=
    System.Reachable.start ⟨fun _ _ => rfl, rfl, rfl⟩
  have firstPage : WindowPage 0xC0101000#32 kernelVirt :=
    ⟨by decide, by decide, by rw [Apart]; decide⟩
  have mapped : (dirSystem WindowPage 0xC0101000#32).Reachable
      (emptyRun.after 0xC0101000#32 kernelVirt (.map 0x5000#32 0#32 3#32)) :=
    started.step (DirStep.call (by decide) fun _ => ⟨firstPage, id⟩)
  have laterPage : WindowPage 0xC0101000#32 0xC0105000#32 :=
    ⟨by decide, by decide, by rw [Apart]; decide⟩
  have isFresh : (0xC0105000#32 : U32) ∉
      (emptyRun.after 0xC0101000#32 kernelVirt (.map 0x5000#32 0#32 3#32)).tables := by
    rintro (inEmpty | isFirst)
    · exact inEmpty
    · exact absurd isFirst (by decide)
  have both : (dirSystem WindowPage 0xC0101000#32).Reachable
      ((emptyRun.after 0xC0101000#32 kernelVirt (.map 0x5000#32 0#32 3#32)).after
        0xC0101000#32 0xC0105000#32 (.map 0x6000#32 0x1000#32 3#32)) :=
    mapped.step (DirStep.call (by decide) fun _ => ⟨laterPage, isFresh⟩)
  have same := lastMapping _ _ (by decide) both [] [.map 0x6000#32 0x1000#32 3#32] 0x5000#32 0#32
    3#32 0#32 rfl (by decide) (by decide)
  exact absurd same (by decide)

/-! ### What a mapping does to the pages around it

Every call rewrites the shared directory entry with its own flags, so the other
1023 pages of the region keep their permissions only where the new flags agree
with the old entry on the bits those pages have. -/

/-- The condition on one other entry `q` of the table a call works on: wherever
the entry grants a permission, the directory entry and the flags of the call agree
on it; and where the table is fresh the entry has no frame. -/
def KeepsEntry (page dir : U32) (call : DirCall) (mem : Memory) (q : U32) : Prop :=
  let entry := mem (cell (tableFor page dir call.virt mem) q)
  (∀ b < 3, entry.getLsbD b = true →
    (dirEntry dir call.virt mem).getLsbD b = call.mapFlags.getLsbD b) ∧
  (dirEntry dir call.virt mem = 0#32 → entry >>> 12 = 0#32)

/-- The condition on all other entries of the table. -/
def KeepsNeighbours (page dir : U32) (call : DirCall) (mem : Memory) : Prop :=
  ∀ q, q.toNat < 1024 → q ≠ ptiOf call.virt → KeepsEntry page dir call mem q

/-- The walk through a slot that names a table. -/
theorem effective_of_names {mem : Memory} (isTable : TablePage dir pt)
    (names : NamesTable dir mem (pdiOf v) pt) :
    effective dir v mem =
      { present := (dirEntry dir v mem).getLsbD 0 && (mem (cell pt (ptiOf v))).getLsbD 0
        writable := (dirEntry dir v mem).getLsbD 1 && (mem (cell pt (ptiOf v))).getLsbD 1
        user := (dirEntry dir v mem).getLsbD 2 && (mem (cell pt (ptiOf v))).getLsbD 2
        frame := mem (cell pt (ptiOf v)) >>> 12 } := by
  simp only [effective, walkEntry_of_names isTable names]

/-- The walk through an empty slot finds nothing. -/
theorem effective_of_empty {mem : Memory} (empty : dirEntry dir v mem = 0#32) :
    effective dir v mem =
      { present := false, writable := false, user := false, frame := 0#32 } := by
  simp [effective, walkEntry_of_empty empty, empty]

/-- Granting through two different directory entries comes to the same exactly
when they agree on the bits the table entry has. -/
private theorem agree_iff (pde pde' entry : U32) :
    (∀ b < 3, entry.getLsbD b = true → pde.getLsbD b = pde'.getLsbD b) ↔
      (pde'.getLsbD 0 && entry.getLsbD 0) = (pde.getLsbD 0 && entry.getLsbD 0) ∧
      (pde'.getLsbD 1 && entry.getLsbD 1) = (pde.getLsbD 1 && entry.getLsbD 1) ∧
      (pde'.getLsbD 2 && entry.getLsbD 2) = (pde.getLsbD 2 && entry.getLsbD 2) := by
  have bit : ∀ b, (entry.getLsbD b = true → pde.getLsbD b = pde'.getLsbD b) ↔
      (pde'.getLsbD b && entry.getLsbD b) = (pde.getLsbD b && entry.getLsbD b) := by
    intro b
    cases entry.getLsbD b <;> simp [eq_comm]
  constructor
  · intro agree
    exact ⟨(bit 0).mp (agree 0 (by decide)), (bit 1).mp (agree 1 (by decide)),
      (bit 2).mp (agree 2 (by decide))⟩
  · rintro ⟨zero, one, two⟩ b below
    rw [bit]
    rcases (show b = 0 ∨ b = 1 ∨ b = 2 by omega) with rfl | rfl | rfl
    · exact zero
    · exact one
    · exact two

section Neighbours

variable {dir page : U32} {run : DirRun} {call : DirCall} (holds : DirInvariant dir run)
  (dirFits : dir.toNat + 4 * 1024 ≤ 2 ^ 32) (small : call.flags.toNat < 0x400)
  (fresh : dirEntry dir call.virt run.mem &&& ~~~0x3FF#32 = 0#32 →
    TablePage dir page ∧ page ∉ run.tables)

include holds dirFits fresh in
/-- Pages of other regions keep their mapping. -/
private theorem effective_otherRegion (other : pdiOf v ≠ pdiOf call.virt) :
    effective dir v (call.perform page dir run.mem) = effective dir v run.mem := by
  have slot : dirEntry dir v (call.perform page dir run.mem) = dirEntry dir v run.mem :=
    holds.otherSlot dirFits fresh (toNat_pdiOf_lt v) other
  have walk := holds.slots.walk_congr (toNat_pdiOf_lt v) slot fun pt member names =>
    holds.otherEntry dirFits fresh (holds.tablePage pt member) fun same =>
      absurd same (holds.other_table_ne fresh (toNat_pdiOf_lt v) other member names)
  simp only [effective, slot, walk]

include holds dirFits small fresh in
/-- Another page of the same region keeps its mapping exactly when its entry meets
the condition. -/
private theorem effective_sameRegion_iff (samePdi : pdiOf v = pdiOf call.virt)
    (other : ptiOf v ≠ ptiOf call.virt) :
    effective dir v (call.perform page dir run.mem) = effective dir v run.mem ↔
      KeepsEntry page dir call run.mem (ptiOf v) := by
  have isTable := holds.tableFor_tablePage fresh
  have slot : dirEntry dir v (call.perform page dir run.mem) =
      v2p (tableFor page dir call.virt run.mem) ||| call.mapFlags := by
    rw [dirEntry, samePdi]
    exact DirInvariant.ownSlot ..
  have sameSlot : dirEntry dir v run.mem = dirEntry dir call.virt run.mem := by
    rw [dirEntry, dirEntry, samePdi]
  have namesAfter : NamesTable dir (call.perform page dir run.mem) (pdiOf v)
      (tableFor page dir call.virt run.mem) :=
    ⟨call.mapFlags, DirCall.mapFlags_lt small, slot⟩
  have entry := holds.otherEntry dirFits fresh isTable fun _ => other
  have after := effective_of_names isTable namesAfter
  rw [slot, entry, isTable.entry_getLsbD (by decide), isTable.entry_getLsbD (by decide),
    isTable.entry_getLsbD (by decide)] at after
  rcases holds.tableFor_cases fresh with ⟨member, names⟩ | ⟨empty, _, _⟩
  · rw [← samePdi] at names
    have before := effective_of_names isTable names
    rw [sameSlot] at before
    have nonzero : dirEntry dir call.virt run.mem ≠ 0#32 :=
      sameSlot ▸ (names.spec isTable).1
    rw [after, before, KeepsEntry, agree_iff]
    simp [nonzero]
  · rw [after, effective_of_empty (sameSlot.trans empty), KeepsEntry, agree_iff, empty]
    simp [and_assoc]

end Neighbours

/-- Mapping a page leaves the effective mapping of every other page alone exactly
when the call's flags agree with what the neighbours had. -/
theorem mapping_keeps_other_pages_iff {dir : U32} {run : DirRun} (page : U32)
    (call : DirCall) (dirFits : dir.toNat + 4 * 1024 ≤ 2 ^ 32)
    (reached : (dirSystem TablePage dir).Reachable run) (small : call.flags.toNat < 0x400)
    (fresh : dirEntry dir call.virt run.mem &&& ~~~0x3FF#32 = 0#32 →
      TablePage dir page ∧ page ∉ run.tables) :
    (∀ v, pageOf v ≠ pageOf call.virt →
      effective dir v (call.perform page dir run.mem) = effective dir v run.mem) ↔
    KeepsNeighbours page dir call run.mem := by
  have holds := DirInvariant.of_reachable dirFits reached
  constructor
  · intro unchanged q inside other
    obtain ⟨v, samePdi, isSlot⟩ := exists_address_with_slots call.virt inside
    have otherPage : pageOf v ≠ pageOf call.virt := fun same =>
      other (isSlot.symm.trans (pageOf_eq_iff_slots.mp same).2)
    rw [← isSlot] at other ⊢
    exact (effective_sameRegion_iff holds dirFits small fresh samePdi other).mp
      (unchanged v otherPage)
  · intro keeps v otherPage
    by_cases samePdi : pdiOf v = pdiOf call.virt
    · have other : ptiOf v ≠ ptiOf call.virt := fun same =>
        otherPage (pageOf_eq_iff_slots.mpr ⟨samePdi, same⟩)
      exact (effective_sameRegion_iff holds dirFits small fresh samePdi other).mpr
        (keeps _ (toNat_ptiOf_lt v) other)
    · exact effective_otherRegion holds dirFits fresh samePdi

/-- Mapping page 1 read-only takes the write permission of page 0 away. -/
theorem neighbour_loses_write :
    ¬ ∀ (dir page : U32) (run : DirRun) (call : DirCall), dir.toNat + 4 * 1024 ≤ 2 ^ 32 →
      (dirSystem TablePage dir).Reachable run → call.flags.toNat < 0x400 →
      (dirEntry dir call.virt run.mem &&& ~~~0x3FF#32 = 0#32 →
        TablePage dir page ∧ page ∉ run.tables) →
      ∀ v, pageOf v ≠ pageOf call.virt →
        effective dir v (call.perform page dir run.mem) = effective dir v run.mem := by
  intro unchanged
  have inUse : dirEntry 0xC0101000#32 0x1000#32 onePage.mem &&& ~~~0x3FF#32 ≠ 0#32 := by decide
  have same := unchanged 0xC0101000#32 0#32 onePage (.map 0x6000#32 0x1000#32 1#32) (by decide)
    reachable_onePage (by decide) (fun unused => absurd unused inUse) 0#32 (by decide)
  exact absurd same (by decide)

/-- Mapping page 1 with the flags of page 0 keeps page 0 as it was. -/
theorem neighbour_kept_by_equal_flags :
    KeepsNeighbours 0#32 0xC0101000#32 (.map 0x6000#32 0x1000#32 3#32) onePage.mem ∧
      effective 0xC0101000#32 0#32
        ((DirCall.map 0x6000#32 0x1000#32 3#32).perform 0#32 0xC0101000#32 onePage.mem) =
      effective 0xC0101000#32 0#32 onePage.mem := by
  have inUse : dirEntry 0xC0101000#32 0x1000#32 onePage.mem &&& ~~~0x3FF#32 ≠ 0#32 := by decide
  have keeps : KeepsNeighbours 0#32 0xC0101000#32 (.map 0x6000#32 0x1000#32 3#32)
      onePage.mem := by
    -- the flags agree with the directory entry on every permission
    have agree : ∀ b < 3, (dirEntry 0xC0101000#32 0x1000#32 onePage.mem).getLsbD b =
        (3#32).getLsbD b := by decide
    have nonzero : dirEntry 0xC0101000#32 0x1000#32 onePage.mem ≠ 0#32 := by decide
    intro q _ _
    exact ⟨fun b low _ => agree b low, fun empty => absurd empty nonzero⟩
  have unchanged := (mapping_keeps_other_pages_iff 0#32 (.map 0x6000#32 0x1000#32 3#32)
    (by decide) reachable_onePage (by decide) fun unused => absurd unused inUse).mpr keeps
  exact ⟨keeps, unchanged 0#32 (by decide)⟩

end Crunchy
