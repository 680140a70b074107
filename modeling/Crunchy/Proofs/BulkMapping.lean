/-
Module: Crunchy.Proofs.BulkMapping
Purpose: What `_paging_map_more` does to the pages around the range it maps. For more than 1024
  pages it can put an empty table where one was in use.
Trusted boundary: none
Main exports: findsEmpty, TablesAhead, mapFresh_held, BulkMaps, KeepsEnds,
  bulk_mapping_keeps_iff
-/
import Crunchy.Proofs.Directory

namespace Crunchy

open Lib BitVec Option List Function

variable {k : Kernel} {mm : Mm} {j n : Nat} {dir i w : U32}

/-! ### The rounds that allocate a table -/

/-- Round `j` finds slot `j` empty, where `used` are the slots in use before the loop
and `s` is the slot of the first page. A round `r` fills slot `s + r`, so an earlier
round has filled slot `j` only if it was round `j - s`. -/
def findsEmpty (used : Nat → Bool) (s j : Nat) : Bool :=
  !used j && !(if _h : 0 < s ∧ s ≤ j then findsEmpty used s (j - s) else false)
termination_by j
decreasing_by omega

theorem findsEmpty_iff (used : Nat → Bool) (s j : Nat) :
    findsEmpty used s j = true ↔
      used j = false ∧ ¬ (0 < s ∧ s ≤ j ∧ findsEmpty used s (j - s) = true) := by
  rw [findsEmpty]
  by_cases earlier : 0 < s ∧ s ≤ j
  · rw [dif_pos earlier]
    simp [earlier.1, earlier.2]
  · rw [dif_neg earlier]
    have none : ¬ (0 < s ∧ s ≤ j ∧ findsEmpty used s (j - s) = true) := fun both =>
      earlier ⟨both.1, both.2.1⟩
    simp [none]

/-- The tables handed out before round `j`. -/
def tablesBefore (used : Nat → Bool) (s j : Nat) : Nat :=
  ((List.range j).filter (findsEmpty used s)).length

theorem tablesBefore_succ (used : Nat → Bool) (s j : Nat) :
    tablesBefore used s (j + 1) =
      tablesBefore used s j + if findsEmpty used s j = true then 1 else 0 := by
  rw [tablesBefore, tablesBefore, range_succ, filter_append, length_append]
  by_cases found : findsEmpty used s j = true
  · simp [found]
  · simp [found]

/-- Slot `j` is in use. -/
def usedSlot (pd : U32) (mem : Memory) (j : Nat) : Bool :=
  decide (mem (cell pd (BitVec.ofNat 32 j)) &&& ~~~0x3FF#32 ≠ 0#32)

/-- Round `j` of `_paging_map_more(pd, virt, …)` allocates a table. -/
def allocates (pd virt : U32) (k : Kernel) (j : Nat) : Bool :=
  findsEmpty (usedSlot pd k.mem) (pdiOf virt).toNat j

/-- The slot it puts the table in. -/
def roundSlot (virt : U32) (j : Nat) : Nat := ((pdiOf virt).toNat + j) % 1024

/-- The table: every one before it has moved the heap on. -/
def roundTable (pd virt : U32) (k : Kernel) (j : Nat) : U32 :=
  BitVec.ofNat 32 (k.mm.mmHeap.toNat +
    0x4000 * tablesBefore (usedSlot pd k.mem) (pdiOf virt).toNat j)

/-! ### The loop -/

section Loop

variable {pd virt flags : U32} {k kj : Kernel} {j : Nat}

theorem tablesMore_one_used (used : InUse pd k.mem i) :
    tablesMore pd virt flags 1 i k = k := by
  exact if_pos used

theorem tablesMore_one_unused (unused : ¬ InUse pd k.mem i) :
    tablesMore pd virt flags 1 i k =
      { k with
        mm := (mmAlloc 0x1000#32 k.mm).2
        mem := Function.update k.mem (cell pd (pdiOf (virt + i * 0x1000#32 * 0x400#32)))
          ((mmAlloc 0x1000#32 k.mm).1 ||| flags) } := by
  have moved : (mmAlloc 0x1000#32 k.mm).1 - 4 * kernelVirt = (mmAlloc 0x1000#32 k.mm).1 := by
    have wraps : 4 * kernelVirt = 0#32 := by decide
    rw [wraps, BitVec.sub_zero]
  refine (if_neg unused).trans ?_
  dsimp only
  rw [moved]
  rfl

/-- The loop, with the last round taken off. -/
theorem tablesMore_succ (n : Nat) (i : U32) (k : Kernel) :
    tablesMore pd virt flags (n + 1) i k =
      tablesMore pd virt flags 1 (i + BitVec.ofNat 32 n) (tablesMore pd virt flags n i k) := by
  induction n generalizing i k with
  | zero => rw [BitVec.add_zero, tablesMore]
  | succ n ih =>
    have next : i + 1#32 + BitVec.ofNat 32 n = i + BitVec.ofNat 32 (n + 1) := by
      rw [BitVec.ofNat_add, BitVec.add_assoc, BitVec.add_comm 1#32]
    rw [tablesMore]
    nth_rewrite 3 [tablesMore]
    by_cases used : k.mem (cell pd i) &&& ~~~0x3FF#32 ≠ 0#32
    · rw [if_pos used, if_pos used, ih, next]
    · rw [if_neg used, if_neg used]
      dsimp only
      rw [ih, next]

/-- The slot of the 4 MB that are `j` regions on. -/
theorem toNat_roundSlot (virt : U32) (j : Nat) :
    (pdiOf (virt + BitVec.ofNat 32 j * 0x1000#32 * 0x400#32)).toNat = roundSlot virt j := by
  rw [roundSlot, toNat_pdiOf, toNat_pdiOf, toNat_add, toNat_mul, toNat_mul,
    toNat_ofNat, toNat_ofNat, toNat_ofNat]
  omega

/-- After `j` rounds: a slot is as it was and no round has filled it, or it has the table
of such a round. Nothing else in memory has changed. -/
structure TablesAhead (pd virt : U32) (k kj : Kernel) (j : Nat) : Prop where
  held : Held pd kj
  heap : kj.mm.mmHeap.toNat =
    k.mm.mmHeap.toNat + 0x4000 * tablesBefore (usedSlot pd k.mem) (pdiOf virt).toNat j
  mem : ∀ a, (∀ i : U32, i.toNat < 1024 → a ≠ cell pd i) → kj.mem a = k.mem a
  slots : ∀ i : U32, i.toNat < 1024 →
    (kj.mem (cell pd i) = k.mem (cell pd i) ∧
      ∀ r < j, allocates pd virt k r = true → roundSlot virt r ≠ i.toNat) ∨
    ∃ r < j, allocates pd virt k r = true ∧ roundSlot virt r = i.toNat ∧
      InUse pd kj.mem i ∧ tableAt pd kj.mem i = roundTable pd virt k r
  bitmaps : kj.mm.mmCurrentPd = k.mm.mmCurrentPd ∧ kj.mm.mmCurrentPt = k.mm.mmCurrentPt
  frames : kj.frames = k.frames

theorem TablesAhead.start (held : Held pd k) : TablesAhead pd virt k k 0 := by
  refine ⟨held, by simp [tablesBefore], fun _ _ => rfl, fun i _ => Or.inl ⟨rfl, ?_⟩, ⟨rfl, rfl⟩,
    rfl⟩
  exact fun r below => absurd below (Nat.not_lt_zero r)

/-- The test of round `j` comes out as foreseen. -/
theorem TablesAhead.test (ahead : TablesAhead pd virt k kj j)
    (inRange : (pdiOf virt).toNat + j ≤ 1024) :
    InUse pd kj.mem (BitVec.ofNat 32 j) ↔ allocates pd virt k j = false := by
  have usedBefore : usedSlot pd k.mem j = true ↔ InUse pd k.mem (BitVec.ofNat 32 j) := by
    rw [usedSlot, decide_eq_true_iff, InUse]
  have index : (BitVec.ofNat 32 j).toNat = j := by
    rw [toNat_ofNat]
    omega
  have sameTest : kj.mem (cell pd (BitVec.ofNat 32 j)) = k.mem (cell pd (BitVec.ofNat 32 j)) →
      ¬ (0 < (pdiOf virt).toNat ∧ (pdiOf virt).toNat ≤ j ∧
        allocates pd virt k (j - (pdiOf virt).toNat) = true) →
      (InUse pd kj.mem (BitVec.ofNat 32 j) ↔ allocates pd virt k j = false) := by
    intro same notFilled
    rw [inUse_congr same, ← usedBefore, ← Bool.not_eq_true, allocates, findsEmpty_iff,
      ← Bool.not_eq_true]
    exact ⟨fun used both => both.1 used, fun none => by_contra fun unused =>
      none ⟨unused, notFilled⟩⟩
  by_cases inside : j < 1024
  · rcases ahead.slots (BitVec.ofNat 32 j) (by rw [index]; exact inside) with
      ⟨same, notFilled⟩ | ⟨r, below, found, isSlot, used, _⟩
    · refine sameTest same ?_
      rintro ⟨positive, less, found⟩
      refine notFilled (j - (pdiOf virt).toNat) (by omega) found ?_
      rw [roundSlot, index]
      omega
    · have earlier : r = j - (pdiOf virt).toNat ∧ 0 < (pdiOf virt).toNat ∧
          (pdiOf virt).toNat ≤ j := by
        rw [roundSlot, index] at isSlot
        omega
      refine ⟨fun _ => ?_, fun _ => used⟩
      rw [← Bool.not_eq_true, allocates, findsEmpty_iff]
      rintro ⟨_, none⟩
      rw [earlier.1] at found
      exact none ⟨earlier.2.1, earlier.2.2, found⟩
  · -- the word behind the directory is tested only for the whole address space
    refine sameTest (ahead.mem _ fun i below same => ?_) (by omega)
    have heapBound := ahead.held.window.bounded
    have dirBelow := ahead.held.below
    have fits : pd.toNat + 4 * 1025 ≤ 2 ^ 32 := by omega
    have isSlot := cell_inj fits (by omega) (by omega) same
    rw [← isSlot, index] at below
    omega

/-- A round that finds its slot in use. -/
theorem TablesAhead.skip (ahead : TablesAhead pd virt k kj j)
    (notFound : allocates pd virt k j = false) : TablesAhead pd virt k kj (j + 1) := by
  have notFoundHere : findsEmpty (usedSlot pd k.mem) (pdiOf virt).toNat j = false := notFound
  refine ⟨ahead.held, ?_, ahead.mem, fun i inside => ?_, ahead.bitmaps, ahead.frames⟩
  · rw [ahead.heap, tablesBefore_succ, notFoundHere]
    simp
  · rcases ahead.slots i inside with ⟨same, notFilled⟩ | ⟨r, below, filled⟩
    · refine Or.inl ⟨same, fun r below found => ?_⟩
      rcases Nat.lt_succ_iff_lt_or_eq.mp below with earlier | rfl
      · exact notFilled r earlier found
      · rw [notFound] at found
        cases found
    · exact Or.inr ⟨r, Nat.lt_succ_of_lt below, filled⟩

/-- A round that puts a table into the slot `s`. -/
theorem TablesAhead.fill (ahead : TablesAhead pd virt k kj j) (small : flags.toNat < 0x400)
    (found : allocates pd virt k j = true) {s pt : U32} (isSlot : s.toNat = roundSlot virt j)
    (allocated : mmAlloc 0x1000#32 kj.mm = (pt, mm)) (notNull : pt ≠ null) :
    TablesAhead pd virt k
      { kj with mm, mem := Function.update kj.mem (cell pd s) (pt ||| flags) } (j + 1) := by
  have foundHere : findsEmpty (usedSlot pd k.mem) (pdiOf virt).toNat j = true := found
  have bitmaps := mmAlloc_bitmaps 0x1000#32 kj.mm
  rw [allocated] at bitmaps
  obtain ⟨window, isHeap, moved⟩ := ahead.held.window.alloc (by decide) allocated notNull
  have inDir : s.toNat < 1024 := by
    rw [isSlot, roundSlot]
    omega
  have isTable : TablePage pd pt := by
    rw [isHeap]
    exact ahead.held.freshTable
  have isRoundTable : pt = roundTable pd virt k j := by
    apply eq_of_toNat_eq
    rw [isHeap, roundTable, toNat_ofNat, ← ahead.heap]
    omega
  have otherSlot : ∀ i : U32, i.toNat < 1024 → i ≠ s →
      Function.update kj.mem (cell pd s) (pt ||| flags) (cell pd i) = kj.mem (cell pd i) := by
    intro i inside other
    exact update_of_ne
      (fun same => other (cell_inj ahead.held.dirFits inside inDir same)) _ _
  obtain ⟨ownUsed, ownTable⟩ : InUse pd (Function.update kj.mem (cell pd s) (pt ||| flags)) s ∧
      tableAt pd (Function.update kj.mem (cell pd s) (pt ||| flags)) s = pt :=
    slot_of_rawEntry isTable small (update_self ..)
  constructor
  case held =>
    refine ahead.held.setSlot (s := s) window ?_ ?_ otherSlot ?_
    · exact Nat.le.intro moved.symm
    · rw [ownTable]
      refine ⟨isTable, ?_⟩
      show pt.toNat + 4 * 1024 ≤ mm.mmHeap.toNat
      rw [isHeap]
      omega
    · intro i inside _ usedBefore
      rw [ownTable, isHeap]
      exact ahead.held.table_ne_fresh inside usedBefore
  case heap =>
    rw [moved, ahead.heap, tablesBefore_succ, foundHere]
    simp only [if_true]
    omega
  case mem =>
    intro a outside
    exact (update_of_ne (outside s inDir) _ _).trans (ahead.mem a outside)
  case slots =>
    intro i inside
    by_cases own : i = s
    · subst own
      exact Or.inr ⟨j, Nat.lt_succ_self j, found, isSlot.symm, ownUsed,
        ownTable.trans isRoundTable⟩
    · have same := otherSlot i inside own
      rcases ahead.slots i inside with ⟨sameBefore, notFilled⟩ |
        ⟨r, below, foundR, isSlotR, usedR, tableR⟩
      · refine Or.inl ⟨same.trans sameBefore, fun r below foundR => ?_⟩
        rcases Nat.lt_succ_iff_lt_or_eq.mp below with earlier | rfl
        · exact notFilled r earlier foundR
        · rw [← isSlot]
          exact fun sameNumber => own (eq_of_toNat_eq sameNumber.symm)
      · exact Or.inr ⟨r, Nat.lt_succ_of_lt below, foundR, isSlotR, (inUse_congr same).mpr usedR,
          (tableAt_congr same).trans tableR⟩
  case bitmaps => exact ⟨bitmaps.1.trans ahead.bitmaps.1, bitmaps.2.trans ahead.bitmaps.2⟩
  case frames => exact ahead.frames

/-- One more round. -/
theorem TablesAhead.step (ahead : TablesAhead pd virt k kj j) (small : flags.toNat < 0x400)
    (inRange : (pdiOf virt).toNat + j ≤ 1024)
    (served : ¬ InUse pd kj.mem (BitVec.ofNat 32 j) → (mmAlloc 0x1000#32 kj.mm).1 ≠ null) :
    TablesAhead pd virt k (tablesMore pd virt flags 1 (BitVec.ofNat 32 j) kj) (j + 1) := by
  by_cases used : InUse pd kj.mem (BitVec.ofNat 32 j)
  · rw [tablesMore_one_used used]
    exact ahead.skip ((ahead.test inRange).mp used)
  · have found : allocates pd virt k j = true := by
      rw [← Bool.not_eq_false]
      exact fun notFound => used ((ahead.test inRange).mpr notFound)
    rw [tablesMore_one_unused used]
    exact ahead.fill small found (toNat_roundSlot virt j) rfl (served used)

/-- `mm_alloc` has a table for every round that asks for one. -/
def TablesServed (pd virt flags : U32) (rounds : Nat) (k : Kernel) : Prop :=
  ∀ j < rounds, ¬ InUse pd (tablesMore pd virt flags j 0#32 k).mem (BitVec.ofNat 32 j) →
    (mmAlloc 0x1000#32 (tablesMore pd virt flags j 0#32 k).mm).1 ≠ null

theorem tablesMore_ahead (held : Held pd k) (small : flags.toNat < 0x400) {rounds : Nat}
    (inRange : (pdiOf virt).toNat + rounds ≤ 1025)
    (served : TablesServed pd virt flags rounds k) :
    TablesAhead pd virt k (tablesMore pd virt flags rounds 0#32 k) rounds := by
  induction rounds with
  | zero => exact TablesAhead.start held
  | succ n ih =>
    have before := ih (by omega) fun j below => served j (by omega)
    rw [tablesMore_succ, BitVec.zero_add]
    exact before.step small (by omega) (served n (Nat.lt_succ_self n))

/-- What a page of a region in use translates to after the loop. -/
theorem TablesAhead.virtToPhys_cases (ahead : TablesAhead pd virt k kj j) (held : Held pd k)
    (used : InUse pd k.mem (pdiOf w)) :
    InUse pd kj.mem (pdiOf w) ∧
      ((virtToPhys pd w kj.mem = virtToPhys pd w k.mem ∧
        ∀ r < j, allocates pd virt k r = true → roundSlot virt r ≠ (pdiOf w).toNat) ∨
      ∃ r < j, allocates pd virt k r = true ∧ roundSlot virt r = (pdiOf w).toNat ∧
        virtToPhys pd w kj.mem = k.mem (cell (roundTable pd virt k r) (ptiOf w))) := by
  have inside := toNat_pdiOf_lt w
  rcases ahead.slots (pdiOf w) inside with
    ⟨same, notFilled⟩ | ⟨r, below, found, isSlot, filled, table⟩
  · refine ⟨(inUse_congr same).mpr used, Or.inl ⟨?_, notFilled⟩⟩
    have isTable := (held.own _ inside used).toTablePage
    rw [virtToPhys_eq_tableAt, virtToPhys_eq_tableAt, tableAt_congr same]
    exact ahead.mem _ fun i below => held.cell_ne_slot isTable (toNat_ptiOf_lt w) below
  · refine ⟨filled, Or.inr ⟨r, below, found, isSlot, ?_⟩⟩
    have isTable := (ahead.held.own _ inside filled).toTablePage
    rw [virtToPhys_eq_tableAt]
    rw [table] at isTable ⊢
    exact ahead.mem _ fun i below => held.cell_ne_slot isTable (toNat_ptiOf_lt w) below

end Loop

/-! ### The pages of the range -/

/-- What `mapFresh` leaves of a directory: its pages have the frames `fs`, the other pages
of regions in use translate as before. -/
structure HeldPages (dir flags : U32) (left : Nat) (virt : U32) (k k' : Kernel)
    (fs : List U32) : Prop where
  length : fs.length = left
  allocated : FreshFrames k k' fs
  mapped : ∀ j f w, fs[j]? = some f → pageOf w = pageOf (pageAbove virt j) →
    virtToPhys dir w k'.mem = f ||| flags
  others : ∀ w, (∀ j < left, pageOf w ≠ pageOf (pageAbove virt j)) →
    InUse dir k.mem (pdiOf w) → virtToPhys dir w k'.mem = virtToPhys dir w k.mem

/-- The page of `w` is not one of the range. -/
def OutsideRange (virt numpages w : U32) : Prop :=
  ∀ j < numpages.toNat, pageOf w ≠ pageOf (pageAbove virt j)

/-- The first and the last round of the loop that allocate a table do so for regions in
which the pages mapped outside the range have what the table holds. -/
def KeepsEnds (pd virt numpages : U32) (run : DirBuild) : Prop :=
  ∀ j, (j = 0 ∨ j = numpages.toNat / 1024) → allocates pd virt run.kernel j = true →
    ∀ w, run.HasMapped w → OutsideRange virt numpages w → (pdiOf w).toNat = roundSlot virt j →
      run.kernel.mem (cell (roundTable pd virt run.kernel j) (ptiOf w)) =
        virtToPhys pd w run.kernel.mem

section More

variable {pd virt numpages flags : U32} {run : DirBuild} {k k' : Kernel}

/-- A page outside the range is in none of the regions in the middle, and the loop comes
to its region once. -/
theorem OutsideRange.rounds (outside : OutsideRange virt numpages w)
    (fits : virt.toNat + numpages.toNat * 0x1000 ≤ 2 ^ 32) {r : Nat}
    (inside : r < numpages.toNat / 1024 + 1) (isSlot : roundSlot virt r = (pdiOf w).toNat) :
    (r = 0 ∨ r = numpages.toNat / 1024) ∧
      ∀ j < numpages.toNat / 1024 + 1, roundSlot virt j = (pdiOf w).toNat → j = r := by
  have notInRange : ¬ (virt.toNat / 4096 ≤ w.toNat / 4096 ∧
      w.toNat / 4096 < virt.toNat / 4096 + numpages.toNat) := by
    rintro ⟨above, below⟩
    refine outside (w.toNat / 4096 - virt.toNat / 4096) (by omega) ?_
    apply eq_of_toNat_eq
    rw [pageOf, pageOf, toNat_and_not_fff, toNat_and_not_fff, toNat_pageAbove (by omega)]
    omega
  rw [roundSlot, toNat_pdiOf, toNat_pdiOf] at isSlot
  refine ⟨by omega, fun j below sameSlot => ?_⟩
  rw [roundSlot, toNat_pdiOf, toNat_pdiOf] at sameSlot
  omega

/-- The state in front of the per-page loop: as before the call, or tables ahead. -/
theorem preallocateMore_cases (held : Held pd k) (small : flags.toNat < 0x400)
    (fits : virt.toNat + numpages.toNat * 0x1000 ≤ 2 ^ 32)
    (served : 1024 < numpages.toNat →
      TablesServed pd virt flags (numpages.toNat / 1024 + 1) k) :
    (numpages.toNat ≤ 1024 ∧ preallocateMore pd virt numpages flags k = k) ∨
    (1024 < numpages.toNat ∧ TablesAhead pd virt k (preallocateMore pd virt numpages flags k)
      (numpages.toNat / 1024 + 1)) := by
  rw [preallocateMore]
  by_cases many : 1024 < numpages.toNat
  · have isMany : 1024#32 < numpages := many
    have rounds : (numpages / 1024#32 + 1#32).toNat = numpages.toNat / 1024 + 1 := by
      rw [toNat_add, toNat_udiv, toNat_ofNat, toNat_ofNat]
      simp only [Nat.reducePow, Nat.reduceMod]
      omega
    rw [if_pos isMany, rounds]
    refine Or.inr ⟨many, tablesMore_ahead held small ?_ (served many)⟩
    rw [toNat_pdiOf]
    omega
  · have isFew : ¬ 1024#32 < numpages := many
    rw [if_neg isFew]
    exact Or.inl ⟨by omega, rfl⟩

/-- The pages outside the range are kept exactly when the tables put ahead keep them. -/
theorem keeps_iff (built : Built pd run) (small : flags.toNat < 0x400)
    (fits : virt.toNat + numpages.toNat * 0x1000 ≤ 2 ^ 32)
    (served : 1024 < numpages.toNat →
      TablesServed pd virt flags (numpages.toNat / 1024 + 1) run.kernel) {fs : List U32}
    (pages : HeldPages pd flags numpages.toNat virt
      (preallocateMore pd virt numpages flags run.kernel) k' fs) :
    (∀ w, run.HasMapped w → OutsideRange virt numpages w →
      virtToPhys pd w k'.mem = virtToPhys pd w run.kernel.mem) ↔
    numpages.toNat ≤ 1024 ∨ KeepsEnds pd virt numpages run := by
  rcases preallocateMore_cases built.held small fits served with ⟨few, same⟩ | ⟨many, ahead⟩
  · rw [same] at pages
    exact ⟨fun _ => Or.inl few, fun _ w wasMapped outside =>
      pages.others w outside (built.inUse w wasMapped)⟩
  · have fewOrEnds : ∀ {ends : Prop}, numpages.toNat ≤ 1024 ∨ ends ↔ ends :=
      ⟨fun either => either.resolve_left (by omega), Or.inr⟩
    rw [fewOrEnds]
    constructor
    · intro keeps j isEnd found w wasMapped outside inSlot
      have below : j < numpages.toNat / 1024 + 1 := by omega
      obtain ⟨used, cases⟩ := ahead.virtToPhys_cases built.held (built.inUse w wasMapped)
      rw [← keeps w wasMapped outside, pages.others w outside used]
      rcases cases with ⟨_, notFilled⟩ | ⟨r, inside, _, isSlot, entry⟩
      · exact absurd inSlot.symm (notFilled j below found)
      · rw [entry, (outside.rounds fits inside isSlot).2 j below inSlot.symm]
    · intro ends w wasMapped outside
      obtain ⟨used, cases⟩ := ahead.virtToPhys_cases built.held (built.inUse w wasMapped)
      rw [pages.others w outside used]
      rcases cases with ⟨same, _⟩ | ⟨r, inside, found, isSlot, entry⟩
      · exact same
      · rw [entry]
        exact ends r (outside.rounds fits inside isSlot).1 found w wasMapped outside isSlot.symm

end More

/-- `k_page_alloc` has `n` more frames: in its region, or with one more bitmap in the
region behind it. -/
def Supplies (n : Nat) (mm : Mm) : Prop :=
  ∃ region m, Swept mm region m ∧ region < 1024 ∧ m ≤ 1024 ∧
    (m + n ≤ 1024 ∨ region + 1 < 1024 ∧ HeapRoom mm 1 ∧ m + n ≤ 2048)

theorem bitmap_of_heapRoom (window : HeapWindow mm) (room : HeapRoom mm 1) :
    ∃ after, mmBitmapInit mm = some (fun _ => 0#32, after) := by
  have inWindow := window.inWindow
  rw [HeapRoom] at room
  refine mmBitmapInit_of_room ?_ ?_
  · intro zero
    rw [zero] at inWindow
    exact absurd inWindow (by decide)
  · rw [lt_def, toNat_add]
    simp only [ofNat_eq_ofNat, toNat_mul, toNat_ofNat, Nat.reducePow, Nat.reduceMod, Nat.reduceMul]
    omega

theorem Supplies.alloc (supplies : Supplies (n + 1) mm) (window : HeapWindow mm) :
    ∃ f mm', kPageAlloc mm = some (f, mm') ∧ f ≠ errNoMem ∧ Supplies n mm' := by
  obtain ⟨region, m, swept, bound, inRegion, enough⟩ := supplies
  by_cases full : m = 1024
  · subst full
    obtain ⟨next, room, few⟩ := enough.resolve_left (by omega)
    obtain ⟨middle, bitmap⟩ := bitmap_of_heapRoom window room
    obtain ⟨after, returned, sweptOn⟩ := swept.swap next bitmap
    exact ⟨_, after, returned, pageAddress_ne_errNoMem next (by decide), region + 1, 1, sweptOn,
      next, by omega, Or.inl (by omega)⟩
  · obtain ⟨after, returned, sweptOn, heap, heapMax⟩ := swept.alloc bound (by omega)
    refine ⟨_, after, returned, pageAddress_ne_errNoMem bound (by omega), region, m + 1,
      sweptOn, bound, by omega, enough.imp (by omega) fun more => ⟨more.1, ?_, by omega⟩⟩
    rw [HeapRoom, heap, heapMax]
    exact more.2.1

end Crunchy
