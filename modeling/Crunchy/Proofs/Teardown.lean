/-
Module: Crunchy.Proofs.Teardown
Purpose: What `free_pagedir` gives back: the frames of the directory, and also its tables, the
  kernel's directory and the directory itself, which came from `mm_alloc`.
Trusted boundary: none
Main exports: pagedirFrees, strayFrees, pmmSystem, teardown_restores_iff
-/
import Crunchy.Proofs.AddressSpace

namespace Crunchy

open Lib List

variable {k k' : Kernel} {mm mm' : Mm} {i n region : Nat} {a dir numpages pd : U32}

/-! ### What `free_pagedir` frees -/

/-- The pages above 4 MB that the words from `pt` on name. -/
def tableFrees (pt : U32) (mem : Memory) : List U32 :=
  ((List.range 1024).map fun q => mem (cell (p2v pt) (BitVec.ofNat 32 q)) &&& ~~~0x3FF#32).filter
    fun page => 0x00400000#32 < page

/-- The page of the table that slot `i` names, zero for none. -/
def tableOf (pd : U32) (mem : Memory) (i : Nat) : U32 :=
  mem (cell pd (BitVec.ofNat 32 i)) &&& ~~~0x3FF#32

/-- What one slot of a directory has freed: the pages of its table, and the table. -/
def slotFrees (pd : U32) (mem : Memory) (i : Nat) : List U32 :=
  if tableOf pd mem i ≠ 0#32 then
    tableFrees (tableOf pd mem i) mem ++ [tableOf pd mem i]
  else []

/-- Every address `free_pagedir(pd)` passes to `k_page_free`, in order. -/
def pagedirFrees (pd : U32) (mem : Memory) : List U32 :=
  (List.range 1024).flatMap (slotFrees pd mem) ++ [pd]

/-- The addresses among them that are no pages of the address space: every table,
the pages and the tables of the last two slots, which name directories, and the
directory. -/
def strayFrees (pd : U32) (mem : Memory) : List U32 :=
  ((List.range 1024).flatMap fun i =>
    if tableOf pd mem i = 0#32 then []
    else if i < 1022 then [tableOf pd mem i]
    else slotFrees pd mem i) ++ [pd]

/-- `k_page_free` for each address of a list. -/
def Kernel.freeAll (addrs : List U32) (k : Kernel) : Kernel :=
  addrs.foldl (fun k addr => k.pageFree addr) k

theorem Kernel.freeAll_append (one two : List U32) (k : Kernel) :
    k.freeAll (one ++ two) = (k.freeAll one).freeAll two :=
  foldl_append

/-- Freeing pages writes no memory. -/
theorem Kernel.freeAll_mem (addrs : List U32) : ∀ k : Kernel, (k.freeAll addrs).mem = k.mem := by
  induction addrs with
  | nil => exact fun _ => rfl
  | cons addr addrs ih => exact fun k => ih (k.pageFree addr)

/-- A bit survives a list of frees when no address of it has that index. -/
theorem Kernel.freeAll_bit (addrs : List U32) (i : Nat) : ∀ k : Kernel,
    (k.freeAll addrs).mm.mmCurrentPt.mem i =
      (k.mm.mmCurrentPt.mem i && decide (∀ addr ∈ addrs, i ≠ (indexOf addr).toNat)) := by
  induction addrs with
  | nil => simp [Kernel.freeAll]
  | cons addr addrs ih =>
    intro k
    have first : (k.pageFree addr).mm.mmCurrentPt.mem i =
        (decide (i ≠ (indexOf addr).toNat) && k.mm.mmCurrentPt.mem i) := by
      rw [Kernel.pageFree, kPageFree_eq]
      exact mem_mmBitmapUnsetBit _ _ _
    have rest : (k.freeAll (addr :: addrs)) = (k.pageFree addr).freeAll addrs := rfl
    rw [rest, ih, first]
    simp only [forall_mem_cons, Bool.decide_and]
    cases k.mm.mmCurrentPt.mem i <;> simp

private theorem range'_succ_map {α : Type} (f : Nat → α) (start left : Nat) :
    (List.range' start (left + 1)).map f = f start :: (List.range' (start + 1) left).map f := by
  rw [range'_succ, map_cons]

/-- The inner loop frees the pages of the entries it has left. -/
theorem freeTableLoop_eq (pt : U32) (left : Nat) : ∀ (q : Nat) (k : Kernel),
    freeTableLoop pt left (BitVec.ofNat 32 q) k =
      k.freeAll (((List.range' q left).map fun q =>
        k.mem (cell (p2v pt) (BitVec.ofNat 32 q)) &&& ~~~0x3FF#32).filter
          fun page => 0x00400000#32 < page) := by
  induction left with
  | zero => exact fun _ _ => rfl
  | succ left ih =>
    intro q k
    have next : BitVec.ofNat 32 q + 1#32 = BitVec.ofNat 32 (q + 1) := (BitVec.ofNat_add q 1).symm
    rw [freeTableLoop, next, range'_succ_map, filter_cons]
    by_cases above : 0x00400000#32 < k.mem (cell (p2v pt) (BitVec.ofNat 32 q)) &&& ~~~0x3FF#32
    · rw [if_pos above, ih, if_pos (decide_eq_true above)]
      rfl
    · rw [if_neg above, ih, if_neg (by simpa using above)]

theorem freePagedirLoop_eq (pd : U32) (left : Nat) : ∀ (i : Nat) (k : Kernel),
    freePagedirLoop pd left (BitVec.ofNat 32 i) k =
      k.freeAll ((List.range' i left).flatMap (slotFrees pd k.mem)) := by
  induction left with
  | zero => exact fun _ _ => rfl
  | succ left ih =>
    intro i k
    have next : BitVec.ofNat 32 i + 1#32 = BitVec.ofNat 32 (i + 1) := (BitVec.ofNat_add i 1).symm
    have unfolded : freePagedirLoop pd (left + 1) (BitVec.ofNat 32 i) k =
        if tableOf pd k.mem i ≠ 0#32 then
          freePagedirLoop pd left (BitVec.ofNat 32 i + 1#32)
            ((freeTableLoop (tableOf pd k.mem i) 1024 0#32 k).pageFree (tableOf pd k.mem i))
        else freePagedirLoop pd left (BitVec.ofNat 32 i + 1#32) k := rfl
    rw [unfolded, next, range'_succ, flatMap_cons, Kernel.freeAll_append]
    by_cases used : tableOf pd k.mem i ≠ 0#32
    · have table := freeTableLoop_eq (tableOf pd k.mem i) 1024 0 k
      rw [← range_eq_range'] at table
      have freed : (freeTableLoop (tableOf pd k.mem i) 1024 0#32 k).pageFree
          (tableOf pd k.mem i) = k.freeAll (slotFrees pd k.mem i) := by
        rw [slotFrees, if_pos used, Kernel.freeAll_append]
        exact congrArg (Kernel.pageFree _) table
      rw [if_pos used, freed, ih, Kernel.freeAll_mem]
    · have nothing : slotFrees pd k.mem i = [] := if_neg used
      rw [if_neg used, nothing, ih]
      rfl

/-- `free_pagedir` is a sequence of frees. -/
theorem freePagedir_eq (pd : U32) (k : Kernel) :
    freePagedir pd k = k.freeAll (pagedirFrees pd k.mem) := by
  have loop := freePagedirLoop_eq pd 1024 0 k
  rw [← range_eq_range'] at loop
  rw [freePagedir, pagedirFrees, Kernel.freeAll_append, ← loop]
  rfl

/-! ### What `k_create_pagedir` takes -/

/-- Mapping a page leaves the bitmaps alone. -/
theorem Kernel.pagingMap_bitmaps {phys virt flags : U32}
    (done : k.pagingMap dir phys virt flags = some k') :
    k'.mm.mmCurrentPd = k.mm.mmCurrentPd ∧ k'.mm.mmCurrentPt = k.mm.mmCurrentPt ∧
      k'.frames = k.frames := by
  rw [Kernel.pagingMap] at done
  split at done
  · cases done
    exact ⟨rfl, rfl, rfl⟩
  · have bitmaps := mmAlloc_bitmaps 0x1000#32 k.mm
    dsimp only at done
    split at done
    · cases done
    · cases done
      exact ⟨bitmaps.1, bitmaps.2, rfl⟩

theorem CurrentRegion.of_bitmap (current : CurrentRegion mm region)
    (same : mm'.mmCurrentPd = mm.mmCurrentPd) : CurrentRegion mm' region :=
  ⟨current.bound, by rw [same]; exact current.full⟩

/-- An allocation stays in its region, or goes on to the next and does not come
back. -/
theorem CurrentRegion.pageAlloc (current : CurrentRegion mm region)
    (returned : kPageAlloc mm = some (a, mm')) :
    ∃ next, region ≤ next ∧ CurrentRegion mm' next := by
  rcases kPageAlloc_cases current returned with
    ⟨_, _, _, _, _, _, samePd, _⟩ | ⟨_, _, _, moved, _⟩ | ⟨last, _, _, moved, _⟩ | ⟨_, _, rfl⟩
  · exact ⟨region, Nat.le_refl _, current.of_bitmap samePd⟩
  · exact ⟨region + 1, Nat.le_succ _, moved⟩
  · exact ⟨1024, by omega, moved⟩
  · exact ⟨region, Nat.le_refl _, current⟩

theorem CurrentRegion.mapFresh {flags : U32} {left : Nat} {virt : U32}
    (current : CurrentRegion k.mm region) (done : mapFresh dir flags left virt k = some k') :
    ∃ next, region ≤ next ∧ CurrentRegion k'.mm next := by
  induction left generalizing virt k region with
  | zero =>
    cases done
    exact ⟨region, Nat.le_refl _, current⟩
  | succ left ih =>
    rw [Crunchy.mapFresh] at done
    obtain ⟨⟨phys, k₁⟩, allocated, done⟩ := Option.bind_eq_some_iff.mp done
    obtain ⟨k₂, mapped, done⟩ := Option.bind_eq_some_iff.mp done
    obtain ⟨next, up, current₁⟩ := current.pageAlloc (Kernel.pageAlloc_step allocated).returned
    have current₂ := current₁.of_bitmap (Kernel.pagingMap_bitmaps mapped).1
    obtain ⟨last, further, current'⟩ := ih current₂ done
    exact ⟨last, Nat.le_trans up further, current'⟩

/-- What a sequence of allocations inside one region has taken: the pages `fs`, all
free before, and the bitmap has their bits besides. -/
structure TakenIn (region : Nat) (mm mm' : Mm) (fs : List U32) : Prop where
  page : ∀ f ∈ fs, ∃ i < 1024, f = pageAddress region i ∧ mm.mmCurrentPt.mem i = false
  bits : ∀ i < 1024, mm'.mmCurrentPt.mem i =
    (mm.mmCurrentPt.mem i || decide (pageAddress region i ∈ fs))
  beyond : ∀ i, 1024 ≤ i → mm'.mmCurrentPt.mem i = mm.mmCurrentPt.mem i

theorem TakenIn.cons {mm₁ : Mm} {fs : List U32} (room : region < 1024) (inside : i < 1024)
    (clear : mm.mmCurrentPt.mem i = false)
    (table : mm₁.mmCurrentPt = mmBitmapSetBit mm.mmCurrentPt (BitVec.ofNat 32 i))
    (rest : TakenIn region mm₁ mm' fs) :
    TakenIn region mm mm' (pageAddress region i :: fs) := by
  have index : (BitVec.ofNat 32 i).toNat = i := by
    rw [BitVec.toNat_ofNat, Nat.mod_eq_of_lt (by omega)]
  have bit : ∀ j, mm₁.mmCurrentPt.mem j = (decide (j = i) || mm.mmCurrentPt.mem j) := by
    intro j
    rw [table, mem_mmBitmapSetBit, index]
  refine ⟨fun f member => ?_, fun j jInside => ?_, fun j high => ?_⟩
  · rcases mem_cons.mp member with rfl | later
    · exact ⟨i, inside, rfl, clear⟩
    · obtain ⟨j, jInside, isPage, jClear⟩ := rest.page f later
      rw [bit j, Bool.or_eq_false_iff] at jClear
      exact ⟨j, jInside, isPage, jClear.2⟩
  · have own : pageAddress region j = pageAddress region i ↔ j = i :=
      ⟨fun same => (pageAddress_inj room jInside room inside same).2, fun same => by rw [same]⟩
    rw [rest.bits j jInside, bit j]
    simp only [mem_cons, own, Bool.decide_or]
    cases decide (j = i) <;> simp
  · have differs : j ≠ i := by omega
    rw [rest.beyond j high, bit j]
    simp [differs]

theorem mapFresh_takenIn {flags : U32} {left : Nat} {virt : U32} (room : region < 1024)
    (current : CurrentRegion k.mm region) (noSwap : CurrentRegion k'.mm region)
    (done : mapFresh dir flags left virt k = some k') :
    ∃ fs, k'.frames = fs.reverse ++ k.frames ∧ TakenIn region k.mm k'.mm fs := by
  induction left generalizing virt k with
  | zero =>
    cases done
    exact ⟨[], rfl, by simp, by simp, fun _ _ => rfl⟩
  | succ left ih =>
    rw [Crunchy.mapFresh] at done
    obtain ⟨⟨phys, k₁⟩, allocated, done⟩ := Option.bind_eq_some_iff.mp done
    obtain ⟨k₂, mapped, done⟩ := Option.bind_eq_some_iff.mp done
    have step := Kernel.pageAlloc_step allocated
    obtain ⟨samePd, samePt, sameFrames⟩ := Kernel.pagingMap_bitmaps mapped
    -- no swap now, since there is none to the end
    have stays : CurrentRegion k₂.mm region := by
      obtain ⟨next, up, current₁⟩ := current.pageAlloc step.returned
      have current₂ := current₁.of_bitmap samePd
      obtain ⟨last, further, current'⟩ := current₂.mapFresh done
      cases current'.unique noSwap
      cases Nat.le_antisymm up further
      exact current₂
    obtain ⟨fs, frames, taken⟩ := ih stays done
    obtain ⟨i, inside, clear, rfl, table⟩ : ∃ i < 1024, k.mm.mmCurrentPt.mem i = false ∧
        phys = pageAddress region i ∧
        k₁.mm.mmCurrentPt = mmBitmapSetBit k.mm.mmCurrentPt (BitVec.ofNat 32 i) := by
      have stays₁ : CurrentRegion k₁.mm region := stays.of_bitmap samePd.symm
      rcases kPageAlloc_cases current step.returned with
        ⟨i, inside, _, clear, _, isPage, _, table⟩ | ⟨_, _, _, moved, _⟩ |
        ⟨last, _, _, moved, _⟩ | ⟨exhausted, _⟩
      · exact ⟨i, inside, clear, isPage, table⟩
      · exact absurd (moved.unique stays₁) (by omega)
      · exact absurd (moved.unique stays₁) (by omega)
      · omega
    refine ⟨pageAddress region i :: fs, ?_, .cons room inside clear (samePt.trans table) taken⟩
    rw [frames, sameFrames, step.frames]
    simp

/-- The same for the whole of `k_create_pagedir`. -/
theorem kCreatePagedir_takenIn {virt flags : U32} (fresh : FreshHeap k.mm k.mem)
    (small : flags.toNat < 0x400) (user : virt.toNat + numpages.toNat * 0x1000 ≤ 0xC0000000)
    (room : region < 1024) (current : CurrentRegion k.mm region)
    (noSwap : CurrentRegion k'.mm region)
    (done : kCreatePagedir virt numpages flags k = some (pd, k')) :
    ∃ fs, k'.frames = fs.reverse ++ k.frames ∧ TakenIn region k.mm k'.mm fs := by
  have bitmaps := mmAlloc_bitmaps 0x1000#32 k.mm
  obtain ⟨mm, k₁, k₂, allocated, served, ahead, mapping, rfl⟩ := kCreatePagedir_stages done
  rw [allocated] at bitmaps
  obtain ⟨shape, _, _⟩ := fresh.directory allocated served
  have made := preallocate_spec shape small user ahead
  have samePd : k₁.mm.mmCurrentPd = k.mm.mmCurrentPd := made.bitmaps.1.trans bitmaps.1
  have samePt : k₁.mm.mmCurrentPt = k.mm.mmCurrentPt := made.bitmaps.2.trans bitmaps.2
  have noSwap : CurrentRegion k₂.mm region := noSwap
  obtain ⟨fs, frames, page, bits, beyond⟩ :=
    mapFresh_takenIn room (current.of_bitmap samePd) noSwap mapping
  rw [samePt] at page bits beyond
  exact ⟨fs, frames.trans (by rw [made.frames]), page, bits, beyond⟩

/-! ### The pages of the address space and the others -/

theorem toNat_indexOf (p : U32) : (indexOf p).toNat = p.toNat / 4096 % 1024 := by
  rw [indexOf, toNat_and_3ff, toNat_ushiftRight_div p 12]
  norm_num

theorem toNat_indexOf_pageAddress (room : region < 1024) (inside : i < 1024) :
    (indexOf (pageAddress region i)).toNat = i := by
  rw [toNat_indexOf, toNat_pageAddress room inside]
  omega

theorem mem_tableFrees {pt : U32} {mem : Memory} :
    a ∈ tableFrees pt mem ↔ 0x00400000#32 < a ∧
      ∃ q < 1024, mem (cell (p2v pt) (BitVec.ofNat 32 q)) &&& ~~~0x3FF#32 = a := by
  rw [tableFrees, mem_filter, mem_map]
  simp only [mem_range, decide_eq_true_eq]
  constructor
  · rintro ⟨found, above⟩
    exact ⟨above, found⟩
  · rintro ⟨above, found⟩
    exact ⟨found, above⟩

/-- An address is freed as a page of one of the first 1022 slots, or strays. -/
theorem mem_pagedirFrees {mem : Memory} :
    a ∈ pagedirFrees pd mem ↔ a ∈ strayFrees pd mem ∨
      ∃ i < 1022, tableOf pd mem i ≠ 0#32 ∧ a ∈ tableFrees (tableOf pd mem i) mem := by
  rw [pagedirFrees, strayFrees, mem_append, mem_append, mem_flatMap, mem_flatMap]
  constructor
  · rintro (⟨i, inside, freed⟩ | isPd)
    · rw [slotFrees] at freed
      split at freed
      · rename_i used
        have used : tableOf pd mem i ≠ 0#32 := used
        by_cases low : i < 1022
        · rcases mem_append.mp freed with page | table
          · exact Or.inr ⟨i, low, used, page⟩
          · refine Or.inl (Or.inl ⟨i, inside, ?_⟩)
            rw [if_neg used, if_pos low]
            exact table
        · refine Or.inl (Or.inl ⟨i, inside, ?_⟩)
          rw [if_neg used, if_neg low, slotFrees, if_pos used]
          exact freed
      · cases freed
    · exact Or.inl (Or.inr isPd)
  · rintro ((⟨i, inside, strays⟩ | isPd) | ⟨i, low, used, page⟩)
    · split at strays
      · cases strays
      · rename_i used
        split at strays
        · refine Or.inl ⟨i, inside, ?_⟩
          rw [slotFrees, if_pos used]
          exact mem_append_right _ strays
        · exact Or.inl ⟨i, inside, strays⟩
    · exact Or.inr isPd
    · refine Or.inl ⟨i, mem_range.mpr (by omega), ?_⟩
      rw [slotFrees, if_pos used]
      exact mem_append_left _ page

/-- The flags of an entry do not reach into the address of its page. -/
theorem entry_page {f flags : U32} (aligned : f.toNat % 4096 = 0) (small : flags.toNat < 0x400) :
    (f ||| flags) &&& ~~~0x3FF#32 = f := by
  apply BitVec.eq_of_toNat_eq
  rw [toNat_and_not_3ff, toNat_or_of_aligned (k := 12) aligned (by omega)]
  omega

/-- Every pair of indices is that of an address. -/
theorem exists_address_at {q : Nat} (slotInside : i < 1024) (entryInside : q < 1024) :
    ∃ v, pdiOf v = BitVec.ofNat 32 i ∧ ptiOf v = BitVec.ofNat 32 q := by
  obtain ⟨v, slot, entry⟩ := exists_address_with_slots (BitVec.ofNat 32 (i * 4194304))
    (q := BitVec.ofNat 32 q) (by rw [BitVec.toNat_ofNat]; omega)
  refine ⟨v, slot.trans (BitVec.eq_of_toNat_eq ?_), entry⟩
  rw [toNat_pdiOf, BitVec.toNat_ofNat, BitVec.toNat_ofNat]
  omega

/-- The pages above 4 MB in the tables of a directory are those that some address is
translated to. -/
theorem DirShape.lowFrees_iff (shape : DirShape pd k) :
    (∃ i < 1022, tableOf pd k.mem i ≠ 0#32 ∧ a ∈ tableFrees (tableOf pd k.mem i) k.mem) ↔
      0x00400000#32 < a ∧ ∃ v, LowSlot v ∧ walkEntry pd v k.mem &&& ~~~0x3FF#32 = a := by
  constructor
  · rintro ⟨i, low, used, freed⟩
    obtain ⟨above, q, inside, isPage⟩ := mem_tableFrees.mp freed
    obtain ⟨v, slot, entry⟩ := exists_address_at (Nat.lt_trans low (by decide)) inside
    have lowSlot : LowSlot v := by
      rw [LowSlot, slot, BitVec.toNat_ofNat]
      omega
    refine ⟨above, v, lowSlot, ?_⟩
    rcases shape.slot (pdiOf v) lowSlot with empty | ⟨pt, own, names⟩
    · rw [slot] at empty
      exact absurd (by rw [tableOf, empty]; rfl) used
    · have isTable : p2v (tableOf pd k.mem i) = pt := by
        rw [tableOf, ← slot]
        exact (names.spec own.toTablePage).2.2.1
      rw [isTable, ← entry] at isPage
      rw [walkEntry_of_names own.toTablePage names]
      exact isPage
  · rintro ⟨above, v, lowSlot, isPage⟩
    have slot : BitVec.ofNat 32 (pdiOf v).toNat = pdiOf v := by
      rw [BitVec.ofNat_toNat, BitVec.setWidth_eq]
    rcases shape.slot (pdiOf v) lowSlot with empty | ⟨pt, own, names⟩
    · rw [walkEntry_of_empty empty, BitVec.zero_and] at isPage
      rw [← isPage] at above
      exact absurd above (by decide)
    · obtain ⟨_, used, isTable, _⟩ := names.spec own.toTablePage
      rw [walkEntry_of_names own.toTablePage names] at isPage
      refine ⟨(pdiOf v).toNat, lowSlot, ?_, mem_tableFrees.mpr ⟨above, ?_⟩⟩
      · rw [tableOf, slot]
        exact used
      · refine ⟨(ptiOf v).toNat, toNat_ptiOf_lt _, ?_⟩
        rw [tableOf, slot, isTable, BitVec.ofNat_toNat, BitVec.setWidth_eq]
        exact isPage

/-- Those of a new directory are the pages it was given. -/
theorem CreatedSpace.own_iff {virt flags : U32} {fs : List U32}
    (space : CreatedSpace virt numpages flags k pd k' fs) (small : flags.toNat < 0x400)
    (user : virt.toNat + numpages.toNat * 0x1000 ≤ 0xC0000000)
    (aligned : ∀ f ∈ fs, f.toNat % 4096 = 0) :
    (∃ i < 1022, tableOf pd k'.mem i ≠ 0#32 ∧ a ∈ tableFrees (tableOf pd k'.mem i) k'.mem) ↔
      a ∈ fs ∧ 0x00400000#32 < a := by
  rw [space.shape.lowFrees_iff, and_comm, and_congr_left_iff]
  intro above
  constructor
  · rintro ⟨v, lowSlot, isPage⟩
    by_cases within : ∃ j < numpages.toNat, pageOf v = pageOf (pageAbove virt j)
    · obtain ⟨j, below, samePage⟩ := within
      have found : fs[j]? = some (fs.get ⟨j, by rw [space.length]; exact below⟩) :=
        getElem?_eq_getElem _
      have member := mem_of_getElem? found
      rw [space.mapped j _ v found lowSlot samePage, entry_page (aligned _ member) small] at isPage
      rw [← isPage]
      exact member
    · rw [space.unmapped v lowSlot fun j below same => within ⟨j, below, same⟩] at isPage
      rw [← isPage] at above
      exact absurd above (by decide)
  · intro member
    obtain ⟨j, below, isFrame⟩ := getElem_of_mem member
    have found : fs[j]? = some a := by rw [getElem?_eq_getElem below, isFrame]
    have inside : j < numpages.toNat := space.length ▸ below
    have address : (pageAbove virt j).toNat = virt.toNat + j * 0x1000 := toNat_pageAbove (by omega)
    have lowSlot : LowSlot (pageAbove virt j) := lowSlot_of_lt (by omega)
    refine ⟨pageAbove virt j, lowSlot, ?_⟩
    rw [space.mapped j a _ found lowSlot rfl, entry_page (aligned a member) small]

/-! ### When the bitmap comes back -/

theorem pageAddress_first : pageAddress 1 0 = 0x00400000#32 := by decide

theorem first_lt_pageAddress (positive : 1 ≤ region) (room : region < 1024) (inside : i < 1024)
    (other : pageAddress region i ≠ 0x00400000#32) :
    0x00400000#32 < pageAddress region i := by
  have value := toNat_pageAddress room inside
  rw [BitVec.lt_def, value, BitVec.toNat_ofNat]
  by_contra notAbove
  exact other (BitVec.eq_of_toNat_eq (by rw [value, BitVec.toNat_ofNat]; omega))

/-- Page `0x00400000` is the first one of region 1. -/
theorem eq_of_pageAddress_first (room : region < 1024) (inside : i < 1024)
    (isFirst : pageAddress region i = 0x00400000#32) : 1 = region ∧ 0 = i :=
  pageAddress_inj (by decide) (by decide) room inside (pageAddress_first.trans isFirst.symm)

namespace TakenIn

variable {region : Nat} {k k' : Kernel} {fs frees strays : List U32}

/-- Where the bits come back, page `0x00400000` has had its bit cleared by a stray
address: `free_pagedir` takes it for memory of the kernel. -/
theorem first_cleared (taken : TakenIn region k.mm k'.mm fs) (room : region < 1024)
    (splits : ∀ a, a ∈ frees ↔ a ∈ strays ∨ a ∈ fs ∧ 0x00400000#32 < a)
    (restored : ∀ i, (k'.freeAll frees).mm.mmCurrentPt.mem i = k.mm.mmCurrentPt.mem i)
    (member : 0x00400000#32 ∈ fs) : ∃ a ∈ strays, (indexOf a).toNat = 0 := by
  obtain ⟨i, inside, isPage, clear⟩ := taken.page _ member
  obtain ⟨rfl, rfl⟩ := eq_of_pageAddress_first room inside isPage.symm
  -- bit 0 was set by the allocation and is clear again
  have set := taken.bits 0 (by decide)
  rw [pageAddress_first, decide_eq_true member, Bool.or_true] at set
  have back := restored 0
  rw [Kernel.freeAll_bit, set, clear, Bool.true_and, decide_eq_false_iff_not] at back
  push Not at back
  obtain ⟨a, freed, index⟩ := back
  rcases (splits a).mp freed with isStray | ⟨own, high⟩
  · exact ⟨a, isStray, index.symm⟩
  · obtain ⟨j, jInside, rfl, _⟩ := taken.page a own
    rw [toNat_indexOf_pageAddress room jInside] at index
    rw [← index, pageAddress_first] at high
    exact absurd high (by decide)

/-- The bit of a page that was taken before is not cleared. -/
theorem kept (taken : TakenIn region k.mm k'.mm fs) (room : region < 1024)
    (splits : ∀ a, a ∈ frees ↔ a ∈ strays ∨ a ∈ fs ∧ 0x00400000#32 < a)
    (harmless : ∀ a ∈ strays, k.mm.mmCurrentPt.mem (indexOf a).toNat = false)
    (before : k.mm.mmCurrentPt.mem i = true) : ∀ a ∈ frees, i ≠ (indexOf a).toNat := by
  rintro a freed rfl
  rcases (splits a).mp freed with isStray | ⟨own, _⟩
  · rw [harmless a isStray] at before
    cases before
  · obtain ⟨j, inside, rfl, clear⟩ := taken.page a own
    rw [toNat_indexOf_pageAddress room inside, clear] at before
    cases before

/-- The bit of a new page is cleared. -/
theorem cleared (positive : 1 ≤ region) (room : region < 1024)
    (splits : ∀ a, a ∈ frees ↔ a ∈ strays ∨ a ∈ fs ∧ 0x00400000#32 < a)
    (first : 0x00400000#32 ∈ fs → ∃ a ∈ strays, (indexOf a).toNat = 0) (inside : i < 1024)
    (own : pageAddress region i ∈ fs) :
    ¬ ∀ a ∈ frees, i ≠ (indexOf a).toNat := by
  intro untouched
  by_cases isFirst : pageAddress region i = 0x00400000#32
  · obtain ⟨rfl, rfl⟩ := eq_of_pageAddress_first room inside isFirst
    obtain ⟨a, isStray, index⟩ := first (pageAddress_first ▸ own)
    exact untouched a ((splits a).mpr (Or.inl isStray)) index.symm
  · have above := first_lt_pageAddress positive room inside isFirst
    exact untouched _ ((splits _).mpr (Or.inr ⟨own, above⟩))
      (toNat_indexOf_pageAddress room inside).symm

/-- The frees undo the allocations `fs` of a region when they touch no page that was
taken before, and when page `0x00400000`, which `free_pagedir` takes for memory of
the kernel, is not among `fs` or has its bit cleared by another address. -/
theorem restored_iff (taken : TakenIn region k.mm k'.mm fs) (positive : 1 ≤ region)
    (room : region < 1024) (splits : ∀ a, a ∈ frees ↔ a ∈ strays ∨ a ∈ fs ∧ 0x00400000#32 < a) :
    (∀ i, (k'.freeAll frees).mm.mmCurrentPt.mem i = k.mm.mmCurrentPt.mem i) ↔
      (∀ a ∈ strays, k.mm.mmCurrentPt.mem (indexOf a).toNat = false) ∧
      (0x00400000#32 ∈ fs → ∃ a ∈ strays, (indexOf a).toNat = 0) := by
  constructor
  · intro restored
    refine ⟨fun a isStray => ?_, taken.first_cleared room splits restored⟩
    rw [← restored, Kernel.freeAll_bit, Bool.and_eq_false_iff, decide_eq_false_iff_not]
    exact Or.inr fun untouched => untouched a ((splits a).mpr (Or.inl isStray)) rfl
  · rintro ⟨harmless, first⟩ i
    rw [Kernel.freeAll_bit]
    by_cases inside : i < 1024
    · rw [taken.bits i inside]
      cases before : k.mm.mmCurrentPt.mem i with
      | true =>
        rw [Bool.true_or, Bool.true_and, decide_eq_true_iff]
        exact taken.kept room splits harmless before
      | false =>
        rw [Bool.false_or, Bool.and_eq_false_iff, decide_eq_false_iff_not,
          decide_eq_false_iff_not]
        by_cases own : pageAddress region i ∈ fs
        · exact Or.inr (cleared positive room splits first inside own)
        · exact Or.inl own
    · have untouched : ∀ a ∈ frees, i ≠ (indexOf a).toNat := by
        intro a _
        rw [toNat_indexOf]
        omega
      rw [taken.beyond i (by omega), decide_eq_true untouched, Bool.and_true]

end TakenIn

/-! ### The states of the page allocator -/

/-- What moves the state of `mm.c` after `k_mm_init`. -/
inductive PmmEvent where
  | alloc
  | free (addr : U32)
  | heap (n : U32)

/-- `k_page_alloc`, `k_page_free` of whatever address, and `mm_alloc`. -/
inductive PmmStep : Mm → PmmEvent → Mm → Prop where
  | alloc {before after : Mm} {a : U32} (returned : kPageAlloc before = some (a, after)) :
      PmmStep before .alloc after
  | free {before : Mm} (addr : U32) : PmmStep before (.free addr) (kPageFree addr before).2
  | heap {before : Mm} (n : U32) : PmmStep before (.heap n) (mmAlloc n before).2

/-- The runs of the allocator from `k_mm_init`. -/
def pmmSystem : System Mm PmmEvent where
  Start mm := ∃ heap heapMax first, kMmInit heap heapMax = some (first, mm)
  Step := PmmStep

theorem sweeping_of_pmm (reached : pmmSystem.Reachable mm) : Sweeping mm := by
  refine reached.invariant Sweeping ?_ ?_
  · rintro mm ⟨heap, heapMax, first, init⟩
    exact ⟨1, Nat.le_refl _, (kMmInit_spec init).1⟩
  · intro before event after sweeping taken
    change PmmStep before event after at taken
    cases taken with
    | alloc returned => exact (kPageAlloc_taken sweeping returned).1
    | free addr =>
      rw [kPageFree_eq]
      exact sweeping.of_bitmaps rfl
    | heap n => exact sweeping.of_bitmaps (mmAlloc_bitmaps n before).1

/-- The runs that free live pages only are among them. -/
theorem pmm_of_pageSystem {run : PageRun} (reached : pageSystem.Reachable run) :
    pmmSystem.Reachable run.mm := by
  refine reached.invariant (fun run => pmmSystem.Reachable run.mm) ?_ ?_
  · rintro run ⟨heap, heapMax, first, init, _⟩
    exact .start ⟨heap, heapMax, first, init⟩
  · intro before event after reached taken
    change PageStep before event after at taken
    cases taken with
    | alloc returned => exact reached.step (PmmStep.alloc returned)
    | free _ => exact reached.step (PmmStep.free _)

/-- The region of a directory bitmap is read off its first free bit. -/
theorem CurrentRegion.of_firstFree {other : Nat} (current : CurrentRegion mm region)
    (room : region < 1024) (moved : CurrentRegion mm' other)
    (same : mmFirstFree mm'.mmCurrentPd = mmFirstFree mm.mmCurrentPd) : other = region := by
  rw [current.firstFree room] at same
  have bound := moved.bound
  rcases Nat.lt_or_eq_of_le bound with inside | rfl
  · rw [moved.firstFree inside] at same
    have value := congrArg BitVec.toNat same
    rw [BitVec.toNat_ofNat, BitVec.toNat_ofNat] at value
    omega
  · rw [moved.firstFree_full] at same
    exact absurd same.symm (ofNat_ne_errNoMem room)

/-- A new address space and what taking it down again frees. -/
theorem create_free_restored_iff {created : Kernel} {virt : U32} (sweeping : Sweeping k.mm)
    (room : mmFirstFree k.mm.mmCurrentPd ≠ errNoMem) (fresh : FreshHeap k.mm k.mem)
    (user : virt.toNat + numpages.toNat * 0x1000 ≤ 0xC0000000)
    (create : kCreatePagedir virt numpages 7#32 k = some (pd, created))
    (noSwap : mmFirstFree created.mm.mmCurrentPd = mmFirstFree k.mm.mmCurrentPd) :
    (∀ i, (freePagedir pd created).mm.mmCurrentPt.mem i = k.mm.mmCurrentPt.mem i) ↔
      (∀ a ∈ strayFrees pd created.mem, k.mm.mmCurrentPt.mem (indexOf a).toNat = false) ∧
      (0x00400000#32 ∈ created.frames.take numpages.toNat →
        ∃ a ∈ strayFrees pd created.mem, (indexOf a).toNat = 0) := by
  have small : (7#32 : U32).toNat < 0x400 := by decide
  obtain ⟨fs, space⟩ := kCreatePagedir_spec fresh sweeping small user create
  obtain ⟨region, positive, current⟩ := sweeping
  have inRegion : region < 1024 := by
    rcases Nat.lt_or_eq_of_le current.bound with inside | rfl
    · exact inside
    · exact absurd current.firstFree_full room
  have stays : CurrentRegion created.mm region := by
    obtain ⟨other, _, moved⟩ := space.sweeping
    cases current.of_firstFree inRegion moved noSwap
    exact moved
  obtain ⟨taken, frames, inBitmap⟩ :=
    kCreatePagedir_takenIn fresh small user inRegion current stays create
  have sameFrames : taken = fs := by
    rw [space.frames] at frames
    exact (reverse_inj.mp (append_cancel_right frames)).symm
  rw [sameFrames] at inBitmap
  have aligned : ∀ f ∈ fs, f.toNat % 4096 = 0 := by
    intro f member
    obtain ⟨i, inside, rfl, _⟩ := inBitmap.page f member
    rw [toNat_pageAddress inRegion inside]
    omega
  have newest : created.frames.take numpages.toNat = fs.reverse := by
    rw [space.frames, ← space.length, ← length_reverse, take_left]
  rw [freePagedir_eq, newest]
  simp only [mem_reverse]
  refine inBitmap.restored_iff positive inRegion fun a => ?_
  rw [mem_pagedirFrees, space.own_iff small user aligned]

/-- From every state of the allocator: creating an address space inside one region
and freeing it restores the page bitmap exactly when none of the tables and
directories that `free_pagedir` frees besides has the index of a page that was taken,
and page `0x00400000` was not among the new pages, or its bit was cleared by one of
those. -/
theorem teardown_restores_iff {k created : Kernel} {virt numpages pd : U32}
    (reached : pmmSystem.Reachable k.mm)
    (room : mmFirstFree k.mm.mmCurrentPd ≠ errNoMem ∧ mmFirstFree k.mm.mmCurrentPt ≠ errNoMem)
    (fresh : FreshHeap k.mm k.mem) (user : virt.toNat + numpages.toNat * 0x1000 ≤ 0xC0000000)
    (create : kCreatePagedir virt numpages 7#32 k = some (pd, created))
    (noSwap : mmFirstFree created.mm.mmCurrentPd = mmFirstFree k.mm.mmCurrentPd) :
    (∀ i, (freePagedir pd created).mm.mmCurrentPt.mem i = k.mm.mmCurrentPt.mem i) ↔
      (∀ a ∈ strayFrees pd created.mem, k.mm.mmCurrentPt.mem (indexOf a).toNat = false) ∧
      (0x00400000#32 ∈ created.frames.take numpages.toNat →
        ∃ a ∈ strayFrees pd created.mem, (indexOf a).toNat = 0) :=
  create_free_restored_iff (sweeping_of_pmm reached) room.1 fresh user create noSwap

/-- The directory is the page where the unfreeable heap stands. -/
theorem kCreatePagedir_directory {virt flags : U32} (window : HeapWindow k.mm)
    (create : kCreatePagedir virt numpages flags k = some (pd, k')) :
    pd = k.mm.mmHeap := by
  obtain ⟨mm, _, _, allocated, served, _⟩ := kCreatePagedir_stages create
  exact (window.alloc (by decide) allocated served).2.1

/-- The kernel whose first `n` pages of region 1 are taken, and a space of one page. -/
private theorem one_page_space (few : n < 1023) :
    ∃ (k : Kernel) (created : Kernel), pmmSystem.Reachable k.mm ∧ Swept k.mm 1 (n + 1) ∧
      FreshHeap k.mm k.mem ∧
      kCreatePagedir 0x8048000#32 1#32 7#32 k = some (0xC0109000#32, created) ∧
      mmFirstFree created.mm.mmCurrentPd = mmFirstFree k.mm.mmCurrentPd := by
  obtain ⟨run, reached, swept, heap, heapMax, _⟩ := sweep_region_one n (by omega)
  have fresh : FreshHeap run.mm (fun _ => 0#32) :=
    ⟨⟨by rw [heap]; decide, by rw [heap]; decide, by rw [heap]; decide, by rw [heapMax]; decide⟩,
      fun _ _ => rfl⟩
  have heapRoom : HeapRoom run.mm ((1#32 : U32).toNat + (0 + 1) + 1) := by
    rw [HeapRoom, heap, heapMax]
    decide
  have fits : n + 1 + (1#32 : U32).toNat ≤ 1024 := by
    rw [BitVec.toNat_ofNat]
    omega
  obtain ⟨pd, created, _, create, mapKernel, plenty⟩ := address_space_returns
    0x8048000#32 1#32 7#32
    (k := { mm := run.mm, mem := fun _ => 0#32, kernelPageDirectory := 0xC0101000#32,
            currentPageDirectory := 0xC0101000#32, frames := [] })
    fresh (by decide) (by decide) fits ⟨swept, by decide, by decide, heapRoom, not_mem_nil⟩
  have isHeap : pd = 0xC0109000#32 := (kCreatePagedir_directory fresh.window create).trans heap
  rw [isHeap] at create mapKernel
  refine ⟨_, created, pmm_of_pageSystem reached, swept, fresh, create, ?_⟩
  obtain ⟨fs, space⟩ := kCreatePagedir_spec fresh ⟨1, by decide, swept.current⟩ (by decide)
    (by decide) create
  have window := kMapKernelLoop_spec space.shape (by decide) (by decide) mapKernel
  have stays : CurrentRegion created.mm 1 := plenty.swept.current.of_bitmap window.bitmaps.1.symm
  rw [stays.firstFree (by decide), swept.current.firstFree (by decide)]

private theorem Swept.room (swept : Swept mm 1 n) (few : n < 1024) :
    mmFirstFree mm.mmCurrentPd ≠ errNoMem ∧ mmFirstFree mm.mmCurrentPt ≠ errNoMem := by
  constructor
  · rw [swept.current.firstFree (by decide)]
    exact ofNat_ne_errNoMem (by decide)
  · rcases mmFirstFree_cases mm.mmCurrentPt with ⟨_, _, _, _, _, free⟩ | ⟨full, _⟩
    · exact free
    · have set := full n few
      rw [swept.table n few] at set
      simp at set

/-- A one-page space of a fresh kernel. -/
theorem one_page_teardown : ∃ (k created : Kernel),
    kCreatePagedir 0x8048000#32 1#32 7#32 k = some (0xC0109000#32, created) ∧
    ((∀ i, (freePagedir 0xC0109000#32 created).mm.mmCurrentPt.mem i = k.mm.mmCurrentPt.mem i) ↔
      (∀ a ∈ strayFrees 0xC0109000#32 created.mem,
        k.mm.mmCurrentPt.mem (indexOf a).toNat = false) ∧
      (0x00400000#32 ∈ created.frames.take 1 →
        ∃ a ∈ strayFrees 0xC0109000#32 created.mem, (indexOf a).toNat = 0)) := by
  obtain ⟨k, created, reached, swept, fresh, create, noSwap⟩ := one_page_space (n := 0) (by decide)
  exact ⟨k, created, create, teardown_restores_iff reached (swept.room (by decide)) fresh
    (by decide) create noSwap⟩

/-- With 266 pages of region 1 taken, freeing the new directory at `0xC0109000` frees
page 265 of them. -/
theorem teardown_frees_other_page :
    ¬ ∀ (k created : Kernel) (virt numpages pd : U32), pmmSystem.Reachable k.mm →
      mmFirstFree k.mm.mmCurrentPd ≠ errNoMem ∧ mmFirstFree k.mm.mmCurrentPt ≠ errNoMem →
      FreshHeap k.mm k.mem → virt.toNat + numpages.toNat * 0x1000 ≤ 0xC0000000 →
      kCreatePagedir virt numpages 7#32 k = some (pd, created) →
      mmFirstFree created.mm.mmCurrentPd = mmFirstFree k.mm.mmCurrentPd →
      ∀ i, (freePagedir pd created).mm.mmCurrentPt.mem i = k.mm.mmCurrentPt.mem i := by
  intro restores
  obtain ⟨k, created, reached, swept, fresh, create, noSwap⟩ :=
    one_page_space (n := 265) (by decide)
  have room := swept.room (by decide)
  have restored := restores k created _ _ _ reached room fresh (by decide) create noSwap
  have harmless := ((create_free_restored_iff (sweeping_of_pmm reached) room.1 fresh (by decide)
    create noSwap).mp restored).1
  have directory : (0xC0109000#32 : U32) ∈ strayFrees 0xC0109000#32 created.mem := by
    rw [strayFrees]
    exact mem_append_right _ mem_cons_self
  have clear := harmless _ directory
  have index : (indexOf 0xC0109000#32).toNat = 265 := by decide
  rw [index, swept.table 265 (by decide)] at clear
  exact absurd clear (by decide)

end Crunchy
