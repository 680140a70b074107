/-
Module: Crunchy.Proofs.UserHeap
Purpose: The heap of a program that `elf_load` has started: in the page at the break everything
  is as it should be; the first request beyond it takes the page away.
Trusted boundary: none
Main exports: elfLoad_spec, Started, HeapBacked, heapBacked_iff, user_heap_backed_iff
-/
import Crunchy.Proofs.ElfLoad

namespace Crunchy

open Lib BitVec Option List

variable {m m' m₀ : ElfMachine} {k k' : Kernel} {s : List (BitVec 8)} {calls : List MallocCall}
  {phdrs : List Phdr} {ns : List U32} {l : Loaded} {c : MallocCall} {region spare : Nat}
  {p start : Process} {data dest n v : U32}

/-! ### What `elf_load` leaves -/

/-- `k_paging_map(k_page_alloc(), v, 0x7)` maps one page. -/
theorem mapFresh_one_iff :
    mapFresh k.currentPageDirectory 7#32 1 v k = some k' ↔
      ∃ phys k₁, k.pageAlloc = some (phys, k₁) ∧ kPagingMap phys v 0x7#32 k₁ = some k' := by
  rw [← mapEach_eq, range_one, map_singleton, pageAbove_zero]
  constructor
  · intro done
    obtain ⟨⟨phys, k₁⟩, allocated, done⟩ := bind_eq_some_iff.mp done
    obtain ⟨k₂, mapped, done⟩ := bind_eq_some_iff.mp done
    cases done
    exact ⟨phys, k₁, allocated, mapped⟩
  · rintro ⟨phys, k₁, allocated, mapped⟩
    refine bind_eq_some_iff.mpr ⟨_, allocated, ?_⟩
    exact bind_eq_some_iff.mpr ⟨k', mapped, rfl⟩

theorem storeWord_eq (w : U32) :
    m.storeWord v w = storeAll (stretch v 4 fun i => w.extractLsb' (8 * i) 8) m := by
  simp [ElfMachine.storeWord, stretch, storeAll, range_succ]

theorem strcpy_eq : m.strcpy s dest = storeAll (stretch dest (s.length + 1) (s.getD · 0#8)) m := by
  induction s generalizing dest m with
  | nil => simp [ElfMachine.strcpy, stretch, storeAll]
  | cons c s ih =>
    rw [length_cons, stretch_succ]
    exact Option.bind_congr fun m₁ _ => ih

/-- What `elf_load` writes on the stack: the argument and its text, and the two words the
program starts with. -/
def stackStores : List (U32 × BitVec 8) :=
  stretch 0x4500#32 4 (fun i => (0x4000#32 : U32).extractLsb' (8 * i) 8) ++
    (stretch 0x4000#32 6 (newS.getD · 0#8) ++
      (stretch 0x4EFC#32 4 (fun i => (0x4000#32 : U32).extractLsb' (8 * i) 8) ++
        stretch 0x4EF8#32 4 fun i => (0#32 : U32).extractLsb' (8 * i) 8))

/-- The stack is one page more. -/
theorem elfStack_iff {esp : U32} :
    elfStack m = some (esp, m') ↔ ∃ kernel,
      mapFresh m.kernel.currentPageDirectory 7#32 1 0x4000#32 m.kernel = some kernel ∧
      storeAll stackStores { m with kernel } = some m' ∧ 0x4EF8#32 = esp := by
  simp only [elfStack, storeWord_eq, strcpy_eq, stackStores, storeAll_append, mapFresh_one_iff,
    Option.bind_eq_bind, Option.bind_eq_some_iff]
  constructor
  · rintro ⟨⟨phys, k⟩, allocated, kernel, mapped, m₁, argv, m₂, name, m₃, pushed, m₄, count, ⟨⟩⟩
    exact ⟨kernel, ⟨phys, k, allocated, mapped⟩, ⟨m₁, argv, m₂, name, m₃, pushed, count⟩, rfl⟩
  · rintro ⟨kernel, ⟨phys, k, allocated, mapped⟩, ⟨m₁, argv, m₂, name, m₃, pushed, count⟩, rfl⟩
    exact ⟨(phys, k), allocated, kernel, mapped, m₁, argv, m₂, name, m₃, pushed, m', count, rfl⟩

/-- The program starts with the page at the break mapped, and the break at that
page. -/
theorem elfLoad_spec (ready : KernelReady m₀.kernel) (table : elfPhdrs m₀.window data = some phdrs)
    (segments : ∀ ph ∈ phdrs, UserSegment data ph) (loaded : elfLoad data m₀ = some l)
    (user : UserAddress l.cpMmap.base) (served : errNoMem ∉ l.machine.kernel.frames) :
    UserSpace l.machine ∧ l.machine.kernel.currentPageDirectory = l.cpMmap.pd ∧
      l.cpMmap.brk = l.cpMmap.base ∧ l.cpMmap.base.toNat % 0x1000 = 0 ∧
      ∃ a, l.machine.physical l.cpMmap.base = some a := by
  obtain ⟨_, sameTable, loaded⟩ := bind_eq_some_iff.mp loaded
  cases table.symm.trans sameTable
  obtain ⟨m, prepared, loaded⟩ := bind_eq_some_iff.mp loaded
  obtain ⟨m₁, finished, loaded⟩ := bind_eq_some_iff.mp loaded
  obtain ⟨⟨phys, k⟩, allocated, loaded⟩ := bind_eq_some_iff.mp loaded
  obtain ⟨kernel, mapped, loaded⟩ := bind_eq_some_iff.mp loaded
  obtain ⟨⟨esp, m₂⟩, stack, loaded⟩ := bind_eq_some_iff.mp loaded
  cases loaded
  have onePage := mapFresh_one_iff.mpr ⟨phys, k, allocated, mapped⟩
  obtain ⟨kernelStack, stackPage, stored, _⟩ := elfStack_iff.mp stack
  obtain ⟨same, _⟩ := storeAll_same stored
  rw [same] at served
  have served₂ : errNoMem ∉ kernel.frames := fun member => served (mapFresh_frames stackPage member)
  have served₁ : errNoMem ∉ m₁.kernel.frames := fun member =>
    served₂ (mapFresh_frames onePage member)
  obtain ⟨space₀, _, _, _⟩ := elfPrepare_spec ready prepared
  have space₁ := (loadSegments_spec space₀ segments finished served₁).space
  have fits : (breakBase (phdrAt m₁.window (lastPhdr m₁.window data - 32#32))).toNat <
      0xC0000000 := user
  have new₁ := space₁.mapFresh (by omega) onePage served₂
  have new₂ := new₁.space.mapFresh (by decide) stackPage served
  have atBreak := new₁.fresh _ user ⟨0, by decide, by rw [pageAbove_zero]⟩
  obtain ⟨a, found⟩ := new₂.stillMapped user (atBreak.imp fun _ found => found.1)
  refine ⟨new₂.space.ofRam same, ?_, rfl, ?_, a, ?_⟩
  · exact (congrArg _ same).trans (new₂.currentPd.trans new₁.currentPd)
  · show (breakBase _).toNat % 0x1000 = 0
    rw [breakBase, toNat_and_not_fff]
    omega
  · rw [← found]
    exact physical_of_kernel same _

/-! ### Runs of `malloc` -/

/-- A call `malloc(n)` that returned `p`. -/
structure MallocCall where
  n : U32
  p : U32
  before : Process
  after : Process

/-- The calls a program makes. -/
def Process.mallocs : List U32 → Process → Option (List MallocCall)
  | [], _ => some []
  | n :: ns, before => do
      let (p, after) ← before.malloc n
      let calls ← after.mallocs ns
      some ({ n, p, before, after } :: calls)

/-- A run of calls is its first call and a run of the others. -/
theorem Process.mallocs_cons {before : Process} (done : before.mallocs (n :: ns) = some calls) :
    ∃ p after rest, before.malloc n = some (p, after) ∧ after.mallocs ns = some rest ∧
      calls = { n, p, before, after } :: rest := by
  rw [Process.mallocs] at done
  obtain ⟨⟨p, after⟩, called, done⟩ := bind_eq_some_iff.mp done
  obtain ⟨rest, more, done⟩ := bind_eq_some_iff.mp done
  exact ⟨p, after, rest, called, more, (Option.some.inj done).symm⟩

/-- The processor finds a page at `v` in the program's directory. -/
def Process.Mapped (p : Process) (v : U32) : Prop :=
  (effective p.cpMmap.pd v p.kernel.mem).present = true

/-- The frame of that page. -/
def Process.frameAt (p : Process) (v : U32) : U32 :=
  (effective p.cpMmap.pd v p.kernel.mem).frame

/-- No byte belongs to two returned ranges, every byte is mapped when `malloc` returns
it, and a call leaves every page from the base of the heap on its frame. -/
structure HeapBacked (calls : List MallocCall) : Prop where
  disjoint : calls.Pairwise fun a b => ∀ i < a.n.toNat, ∀ j < b.n.toNat,
    a.p + BitVec.ofNat 32 i ≠ b.p + BitVec.ofNat 32 j
  mapped : ∀ c ∈ calls, ∀ j < c.n.toNat, c.after.Mapped (c.p + BitVec.ofNat 32 j)
  kept : ∀ c ∈ calls, ∀ v, c.before.cpMmap.base ≤ v → c.before.Mapped v →
    c.after.Mapped v ∧ c.after.frameAt v = c.before.frameAt v

theorem HeapBacked.tail (backed : HeapBacked (c :: calls)) : HeapBacked calls :=
  ⟨(pairwise_cons.mp backed.disjoint).2,
    fun call member => backed.mapped call (mem_cons_of_mem c member),
    fun call member => backed.kept call (mem_cons_of_mem c member)⟩

theorem HeapBacked.cons (rest : HeapBacked calls)
    (disjoint : ∀ call ∈ calls, ∀ i < c.n.toNat, ∀ j < call.n.toNat,
      c.p + BitVec.ofNat 32 i ≠ call.p + BitVec.ofNat 32 j)
    (mapped : ∀ j < c.n.toNat, c.after.Mapped (c.p + BitVec.ofNat 32 j))
    (kept : ∀ v, c.before.cpMmap.base ≤ v → c.before.Mapped v →
      c.after.Mapped v ∧ c.after.frameAt v = c.before.frameAt v) : HeapBacked (c :: calls) :=
  ⟨pairwise_cons.mpr ⟨disjoint, rest.disjoint⟩,
    forall_mem_cons.mpr ⟨mapped, rest.mapped⟩, forall_mem_cons.mpr ⟨kept, rest.kept⟩⟩

/-- A program after `crt_initialize`: the break and the base of the heap are at the
one page that is mapped for it. -/
structure Started (p : Process) : Prop where
  shape : DirShape p.cpMmap.pd p.kernel
  sweeping : Sweeping p.kernel.mm
  slots : SlotsPresent p.cpMmap.pd p.kernel.mem
  aligned : p.cpMmap.base.toNat % 0x1000 = 0
  user : UserAddress p.cpMmap.base
  breakPage : ∃ f, FrameTaken p.kernel.mm f ∧
    walkEntry p.cpMmap.pd p.cpMmap.base p.kernel.mem = f ||| 7#32
  brk : p.cpMmap.brk = p.cpMmap.base
  heapBase : p.heapBase = p.cpMmap.base

/-- The program once `total` bytes are out, as long as it has not asked for pages. -/
def Process.advanced (p : Process) (total : Nat) : Process :=
  { p with heapLow := p.cpMmap.base + BitVec.ofNat 32 total }

/-- The pages a request that leaves the first page asks for. -/
def pagesAsked (total : Nat) : Nat := (total + 0xFFF) / 0x1000

/-- `malloc` within the page above `HEAP_BASE`. -/
theorem malloc_of_lt (stays : ¬ p.heapBase + 0x1000#32 ≤ p.heapLow + n) :
    p.malloc n = some (p.heapLow, { p with heapLow := p.heapLow + n }) := by
  simp only [Process.malloc, if_neg stays, add_sub_cancel]

/-- `malloc` beyond it: pages from the break on, and `HEAP_BASE` is the new break. -/
theorem malloc_of_ge (grows : p.heapBase + 0x1000#32 ≤ p.heapLow + n) :
    p.malloc n =
      (mapFresh p.cpMmap.pd 7#32 (sbrkPages (p.heapLow + n - p.heapBase)) p.cpMmap.brk
        p.kernel).map fun kernel =>
          (p.heapLow,
            { kernel
              cpMmap := { p.cpMmap with
                brk := pageAbove p.cpMmap.brk (sbrkPages (p.heapLow + n - p.heapBase)) }
              heapBase := pageAbove p.cpMmap.brk (sbrkPages (p.heapLow + n - p.heapBase))
              heapLow := p.heapLow + n }) := by
  simp only [Process.malloc, if_pos grows, add_sub_cancel, Process.syscallEight, sysSbrk_eq]
  cases mapFresh p.cpMmap.pd 7#32 (sbrkPages (p.heapLow + n - p.heapBase)) p.cpMmap.brk p.kernel <;>
    rfl

namespace Started

variable {start : Process} {total : Nat} {n : U32}

theorem advanced_zero (atBase : start.heapLow = start.cpMmap.base) : start.advanced 0 = start := by
  rw [Process.advanced, show start.cpMmap.base + BitVec.ofNat 32 0 = start.cpMmap.base by simp,
    ← atBase]

/-- `HEAP_LOW` of the next call. -/
theorem toNat_heapLow (fits : start.cpMmap.base.toNat + total + n.toNat < 2 ^ 32) :
    ((start.advanced total).heapLow + n).toNat = start.cpMmap.base.toNat + total + n.toNat := by
  rw [Process.advanced]
  simp only [toNat_add, toNat_ofNat]
  omega

theorem toNat_limit (started : Started start) :
    ((start.advanced total).heapBase + 0x1000#32).toNat = start.cpMmap.base.toNat + 0x1000 := by
  have user := started.user
  rw [UserAddress] at user
  show (start.heapBase + 0x1000#32).toNat = _
  rw [started.heapBase, toNat_add, toNat_ofNat]
  omega

theorem heapLow_add (fits : start.cpMmap.base.toNat + total + n.toNat < 2 ^ 32) :
    (start.advanced total).heapLow + n =
      start.cpMmap.base + BitVec.ofNat 32 (total + n.toNat) := by
  apply eq_of_toNat_eq
  rw [toNat_heapLow fits, toNat_add, toNat_ofNat]
  omega

/-- A request that stays in the first page. -/
theorem malloc_inside (started : Started start) (inside : total + n.toNat < 0x1000) :
    (start.advanced total).malloc n = some (start.cpMmap.base + BitVec.ofNat 32 total,
      start.advanced (total + n.toNat)) := by
  have user := started.user
  rw [UserAddress] at user
  have stays : ¬ (start.advanced total).heapBase + 0x1000#32 ≤
      (start.advanced total).heapLow + n := by
    rw [le_def, started.toNat_limit, toNat_heapLow (by omega)]
    omega
  rw [malloc_of_lt stays, heapLow_add (by omega)]
  rfl

/-- The program after a request that left the page: both boundaries are at the end
of the pages `sys_sbrk` has mapped. -/
def grownTo (start : Process) (total : Nat) (kernel : Kernel) : Process :=
  { kernel
    cpMmap := { start.cpMmap with brk := pageAbove start.cpMmap.base (pagesAsked total) }
    heapBase := pageAbove start.cpMmap.base (pagesAsked total)
    heapLow := start.cpMmap.base + BitVec.ofNat 32 total }

theorem malloc_grows (started : Started start) (beyond : 0x1000 ≤ total + n.toNat)
    (small : total + n.toNat < 2 ^ 31)
    (fits : start.cpMmap.base.toNat + total + n.toNat ≤ 0xC0000000) :
    (start.advanced total).malloc n =
      (mapFresh start.cpMmap.pd 7#32 (pagesAsked (total + n.toNat)) start.cpMmap.base
        start.kernel).map fun kernel =>
          (start.cpMmap.base + BitVec.ofNat 32 total,
            grownTo start (total + n.toNat) kernel) := by
  have grows : (start.advanced total).heapBase + 0x1000#32 ≤
      (start.advanced total).heapLow + n := by
    rw [le_def, started.toNat_limit, toNat_heapLow (by omega)]
    omega
  have request : ((start.advanced total).heapLow + n - (start.advanced total).heapBase).toNat =
      total + n.toNat := by
    rw [toNat_sub, toNat_heapLow (by omega)]
    show (2 ^ 32 - start.heapBase.toNat + _) % 2 ^ 32 = _
    rw [started.heapBase]
    omega
  have asked : sbrkPages ((start.advanced total).heapLow + n - (start.advanced total).heapBase) =
      pagesAsked (total + n.toNat) := by
    rw [sbrkPages, request, if_pos small, pagesAsked]
  have brk : (start.advanced total).cpMmap.brk = start.cpMmap.base := started.brk
  rw [malloc_of_ge grows, asked, brk, heapLow_add (by omega)]
  rfl

/-- The bytes of the first page are mapped. -/
theorem mapped (started : Started start) (inside : total < 0x1000) :
    start.Mapped (start.cpMmap.base + BitVec.ofNat 32 total) := by
  have user := started.user
  have aligned := started.aligned
  rw [UserAddress] at user
  have address : (start.cpMmap.base + BitVec.ofNat 32 total).toNat =
      start.cpMmap.base.toNat + total := toNat_add_ofNat (by omega)
  have samePage : pageOf (start.cpMmap.base + BitVec.ofNat 32 total) =
      pageOf start.cpMmap.base := by
    rw [pageOf_eq_iff_index, pageIndex, pageIndex, address]
    omega
  obtain ⟨f, _, entry⟩ := started.breakPage
  rw [Process.Mapped, started.shape.present_iff started.slots (lowSlot_of_lt (by omega)),
    walkEntry_of_page _ samePage, entry]
  exact userEntry_present f

/-- The first request that leaves the page takes the page away: `sys_sbrk` maps from
the break on, and the break is still at the page. -/
theorem not_kept (started : Started start) (beyond : 0x1000 ≤ total + n.toNat)
    (small : total + n.toNat < 2 ^ 31)
    (fits : start.cpMmap.base.toNat + total + n.toNat ≤ 0xC0000000) {p : U32} {after : Process}
    (done : (start.advanced total).malloc n = some (p, after))
    (served : errNoMem ∉ after.kernel.frames) :
    after.frameAt start.cpMmap.base ≠ start.frameAt start.cpMmap.base := by
  rw [started.malloc_grows beyond small fits] at done
  obtain ⟨kernel, grown, done⟩ := map_eq_some_iff.mp done
  cases done
  have asked : 1 ≤ pagesAsked (total + n.toNat) := by
    rw [pagesAsked]
    omega
  have room : start.cpMmap.base.toNat + pagesAsked (total + n.toNat) * 0x1000 ≤ 0xFF800000 := by
    rw [pagesAsked]
    omega
  obtain ⟨fs, pages⟩ := mapFresh_spec started.shape started.sweeping (by decide) room grown
  obtain ⟨new, found, entryNow⟩ := pages.mapped_at started.user.low asked (by rw [pageAbove_zero])
  obtain ⟨wasFree, nowTaken⟩ := pages.new_frame served found
  obtain ⟨f, taken, entry⟩ := started.breakPage
  intro same
  have sameFrame : (new ||| 7#32) >>> 12 = (f ||| 7#32) >>> 12 := by
    rw [← entry, ← entryNow]
    exact same
  have isSame := congrArg (fun entry : U32 => entry <<< 12) sameFrame
  simp only [userEntry_frame nowTaken.page.1, userEntry_frame taken.page.1] at isSame
  rw [isSame] at wasFree
  exact wasFree taken

/-! Runs from any point before the first page is full. -/

variable {ns : List U32} {calls : List MallocCall}

/-- In a run whose heap is backed the requests stay in the first page. -/
theorem total_lt (started : Started start) (within : total < 0x1000)
    (small : total + (ns.map BitVec.toNat).sum < 2 ^ 31)
    (fits : start.cpMmap.base.toNat + total + (ns.map BitVec.toNat).sum ≤ 0xC0000000)
    (done : (start.advanced total).mallocs ns = some calls)
    (served : ∀ c ∈ calls, errNoMem ∉ c.after.kernel.frames) (backed : HeapBacked calls) :
    total + (ns.map BitVec.toNat).sum < 0x1000 := by
  induction ns generalizing total calls with
  | nil => exact within
  | cons n ns ih =>
    rw [List.map_cons, List.sum_cons] at small fits ⊢
    obtain ⟨p, after, rest, called, more, rfl⟩ := Process.mallocs_cons done
    obtain ⟨servedHere, servedRest⟩ := List.forall_mem_cons.mp served
    by_cases inside : total + n.toNat < 0x1000
    · cases (started.malloc_inside inside).symm.trans called
      have rest := ih inside (by omega) (by omega) more servedRest backed.tail
      omega
    · have kept := backed.kept _ (List.mem_cons_self ..) start.cpMmap.base (BitVec.le_refl _)
      have atBase := started.mapped (by decide : 0 < 0x1000)
      rw [show start.cpMmap.base + BitVec.ofNat 32 0 = start.cpMmap.base by simp] at atBase
      exact absurd (kept atBase).2
        (started.not_kept (by omega) (by omega) (by omega) called servedHere)

/-- Requests that stay in the first page: each gets the bytes behind the last one. -/
theorem backed (started : Started start) (inside : total + (ns.map BitVec.toNat).sum < 0x1000)
    (done : (start.advanced total).mallocs ns = some calls) :
    HeapBacked calls ∧ ∀ c ∈ calls, start.cpMmap.base.toNat + total ≤ c.p.toNat ∧
      c.p.toNat + c.n.toNat < start.cpMmap.base.toNat + 0x1000 := by
  have user := started.user
  rw [UserAddress] at user
  induction ns generalizing total calls with
  | nil =>
    cases done
    exact ⟨⟨List.Pairwise.nil, by simp, by simp⟩, by simp⟩
  | cons n ns ih =>
    rw [map_cons, sum_cons] at inside
    obtain ⟨p, after, rest, called, more, rfl⟩ := Process.mallocs_cons done
    cases (started.malloc_inside (by omega)).symm.trans called
    obtain ⟨restBacked, places⟩ := ih (by omega) more
    have place : (start.cpMmap.base + BitVec.ofNat 32 total).toNat =
        start.cpMmap.base.toNat + total := toNat_add_ofNat (by omega)
    constructor
    · refine restBacked.cons (fun call member i iInside j jInside same => ?_)
        (fun j jInside => ?_) fun v _ isMapped => ⟨isMapped, rfl⟩
      · -- the later ranges lie behind this one
        have later := places call member
        have value := congrArg BitVec.toNat same
        simp only [toNat_add, toNat_ofNat, place] at value
        simp only at iInside
        omega
      · have jSmall : j < n.toNat := jInside
        have byte := started.mapped (show total + j < 0x1000 by omega)
        rw [ofNat_add, ← add_assoc] at byte
        exact byte
    · refine forall_mem_cons.mpr ⟨?_, fun call member => ?_⟩
      · simp only [place]
        omega
      · have later := places call member
        omega

end Started

/-- From a start with everything in place the heap is backed as long as all requests
together stay below the end of the first page, and no longer. -/
theorem heapBacked_iff (started : Started start) (atBase : start.heapLow = start.cpMmap.base)
    (small : (ns.map BitVec.toNat).sum < 2 ^ 31)
    (fits : start.cpMmap.base.toNat + (ns.map BitVec.toNat).sum ≤ 0xC0000000)
    (done : start.mallocs ns = some calls)
    (served : ∀ c ∈ calls, errNoMem ∉ c.after.kernel.frames) :
    HeapBacked calls ↔ (ns.map BitVec.toNat).sum < 0x1000 := by
  rw [← Started.advanced_zero atBase] at done
  constructor
  · intro backed
    have total := started.total_lt (by decide) (by omega) (by omega) done served backed
    rwa [Nat.zero_add] at total
  · intro inside
    exact (started.backed (by omega) done).1

/-- Asking for no bytes maps nothing: `heap_init` reads the break. -/
theorem heapInit_eq (p : Process) :
    p.heapInit = some { p with heapBase := p.cpMmap.brk, heapLow := p.cpMmap.brk } := by
  have noPages : sbrkPages 0#32 = 0 := by decide
  rw [Process.heapInit, Process.syscallEight, sysSbrk_eq, noPages, mapFresh, map_some,
    pageAbove_zero]
  rfl

/-- A program that `elf_load` has entered and that has run `crt_initialize`. -/
theorem started_of_elfLoad (ready : KernelReady m₀.kernel)
    (table : elfPhdrs m₀.window data = some phdrs) (segments : ∀ ph ∈ phdrs, UserSegment data ph)
    (loaded : elfLoad data m₀ = some l) (user : UserAddress l.cpMmap.base)
    (served : errNoMem ∉ l.machine.kernel.frames) (init : l.process.heapInit = some start) :
    Started start ∧ start.heapLow = start.cpMmap.base ∧ start.cpMmap.base = l.cpMmap.base := by
  obtain ⟨space, current, brk, aligned, a, found⟩ :=
    elfLoad_spec ready table segments loaded user served
  rw [heapInit_eq] at init
  cases init
  have breakPage : ∃ f, FrameTaken l.machine.kernel.mm f ∧
      walkEntry l.cpMmap.pd l.cpMmap.base l.machine.kernel.mem = f ||| 7#32 := by
    rw [← current]
    rcases space.entry _ user with unmapped | isMapped
    · rw [space.physical_of_unmapped user unmapped] at found
      cases found
    · exact isMapped
  have shape := space.shape
  have slots := space.slots
  rw [current] at shape slots
  exact ⟨⟨shape, space.sweeping, slots, aligned, user, breakPage, brk, brk⟩, brk, rfl⟩

/-- The heap of a program: from `elf_load` and `crt_initialize` on, what `malloc`
returns is backed by the kernel as long as all requests together stay below 4 KB, and
no longer. -/
theorem user_heap_backed_iff {data : U32} {phdrs : List Phdr} {m₀ : ElfMachine} {l : Loaded}
    {start : Process} {ns : List U32} {calls : List MallocCall} (ready : KernelReady m₀.kernel)
    (table : elfPhdrs m₀.window data = some phdrs) (segments : ∀ ph ∈ phdrs, UserSegment data ph)
    (loaded : elfLoad data m₀ = some l) (loadServed : errNoMem ∉ l.machine.kernel.frames)
    (init : l.process.heapInit = some start) (user : UserAddress l.cpMmap.base)
    (fits : l.cpMmap.base.toNat + (ns.map BitVec.toNat).sum ≤ 0xC0000000)
    (small : (ns.map BitVec.toNat).sum < 2 ^ 31) (done : start.mallocs ns = some calls)
    (served : ∀ c ∈ calls, errNoMem ∉ c.after.kernel.frames) :
    HeapBacked calls ↔ (ns.map BitVec.toNat).sum < 0x1000 := by
  obtain ⟨started, atBase, sameBase⟩ :=
    started_of_elfLoad ready table segments loaded user loadServed init
  rw [← sameBase] at fits
  exact heapBacked_iff started atBase small fits done served

/-! ### A program that is started -/

/-- With a page and a table left the stack is set up. -/
theorem elfStack_returns {n : Nat} (space : UserSpace m) (few : n + 1 ≤ 1024)
    (plenty : Plenty region n (1 + spare) m.kernel) :
    ∃ esp m', elfStack m = some (esp, m') ∧ Plenty region (n + 1) spare m'.kernel := by
  obtain ⟨kernel, done, left⟩ := mapFresh_returns 7#32 0x4000#32 space.shape.window plenty few
  have new := space.mapFresh (by decide) done left.served
  have inPage : stackStores.all fun s => 0x4000 ≤ s.1.toNat ∧ s.1.toNat < 0x5000 := by decide
  have writable : ∀ s ∈ stackStores, Writable { m with kernel } s.1 := by
    intro s member
    obtain ⟨lower, upper⟩ := of_decide_eq_true (all_eq_true.mp inPage s member)
    have user : UserAddress s.1 := Nat.lt_trans upper (by decide)
    obtain ⟨a, found, _⟩ := new.fresh s.1 user ⟨0, by decide, by
      rw [pageAbove_zero, pageOf_eq_iff_index, pageIndex, pageIndex, toNat_ofNat]
      omega⟩
    exact ⟨user, a, found⟩
  obtain ⟨m', stored⟩ := storeAll_returns_iff.mpr writable
  refine ⟨_, m', elfStack_iff.mpr ⟨kernel, done, stored, rfl⟩, ?_⟩
  rw [(storeAll_same stored).1]
  exact left

/-- Once the segments are loaded `elf_load` needs two more pages. -/
theorem elfLoad_returns {final : ElfMachine} {n : Nat}
    (table : elfPhdrs m₀.window data = some phdrs) (prepared : elfPrepare m₀ = some m)
    (finished : loadSegments data phdrs m = some final) (space : UserSpace final)
    (user : UserAddress (breakBase (phdrAt final.window (lastPhdr final.window data - 32#32))))
    (few : n + 2 ≤ 1024) (plenty : Plenty region n (1 + (1 + spare)) final.kernel) :
    ∃ l, elfLoad data m₀ = some l ∧
      l.cpMmap.base = breakBase (phdrAt final.window (lastPhdr final.window data - 32#32)) ∧
      Plenty region (n + 2) spare l.machine.kernel := by
  rw [UserAddress] at user
  obtain ⟨kernel, done, left⟩ := mapFresh_returns 7#32
    (breakBase (phdrAt final.window (lastPhdr final.window data - 32#32))) space.shape.window
    plenty (by omega)
  have new := space.mapFresh (by omega) done left.served
  obtain ⟨phys, k, allocated, mapped⟩ := mapFresh_one_iff.mp done
  obtain ⟨esp, m', stack, rest⟩ := elfStack_returns new.space (by omega) left
  refine ⟨_, bind_eq_some_iff.mpr ⟨phdrs, table, bind_eq_some_iff.mpr
    ⟨m, prepared, bind_eq_some_iff.mpr ⟨final, finished, bind_eq_some_iff.mpr
      ⟨(phys, k), allocated, bind_eq_some_iff.mpr ⟨kernel, mapped,
        bind_eq_some_iff.mpr ⟨(esp, m'), stack, rfl⟩⟩⟩⟩⟩⟩, rfl, rest⟩

/-- The file of two bytes is started, with its heap at `0x8049000`. -/
theorem twoByteFile_starts : ∃ (m₀ : ElfMachine) (l : Loaded) (start : Process),
    KernelReady m₀.kernel ∧ elfPhdrs m₀.window 0xC0200000#32 = some [twoBytes 2#32] ∧
      elfLoad 0xC0200000#32 m₀ = some l ∧ l.process.heapInit = some start ∧
      l.cpMmap.base = 0x8049000#32 ∧ start.kernel = l.machine.kernel ∧
      Plenty 1 4 59 l.machine.kernel := by
  obtain ⟨m₀, m, final, ready, file, prepared, finished, left⟩ := twoByteFile_loads 2#32
  obtain ⟨space₀, _, window, _⟩ := elfPrepare_spec ready prepared
  have loaded := loadSegments_spec space₀ (twoBytes_segments 2#32) finished left.served
  have sameWindow : final.window = twoByteFile 2#32 := by rw [loaded.window, window, file]
  have table : elfPhdrs m₀.window 0xC0200000#32 = some [twoBytes 2#32] := by
    rw [file]
    decide +kernel
  have base : breakBase (phdrAt final.window (lastPhdr final.window 0xC0200000#32 - 32#32)) =
      0x8049000#32 := by
    rw [sameWindow]
    decide +kernel
  have enough : Plenty 1 2 (1 + (1 + 59)) final.kernel := left
  obtain ⟨l, done, isBase, rest⟩ := elfLoad_returns (n := 2) table prepared finished loaded.space
    (by rw [base, UserAddress]; decide) (by decide) enough
  exact ⟨m₀, l, _, ready, table, done, heapInit_eq _, isBase.trans base, rfl, rest⟩

/-- Requests that stay in the first page are answered without the kernel. -/
theorem Started.mallocs_return (total : Nat) (ns : List U32) (started : Started start)
    (inside : total + (ns.map BitVec.toNat).sum < 0x1000) :
    ∃ calls, (start.advanced total).mallocs ns = some calls ∧
      ∀ c ∈ calls, c.after.kernel = start.kernel := by
  induction ns generalizing total with
  | nil => exact ⟨[], rfl, by simp⟩
  | cons n ns ih =>
    rw [map_cons, sum_cons] at inside
    have first := started.malloc_inside (show total + n.toNat < 0x1000 by omega)
    obtain ⟨calls, rest, same⟩ := ih (total + n.toNat) (by omega)
    let call : MallocCall :=
      { n, p := start.cpMmap.base + BitVec.ofNat 32 total, before := start.advanced total,
        after := start.advanced (total + n.toNat) }
    refine ⟨call :: calls, ?_, forall_mem_cons.mpr ⟨rfl, same⟩⟩
    rw [Process.mallocs, first, bind_eq_bind, bind_some]
    dsimp only
    rw [rest]
    rfl

/-- Sixteen bytes of the first page. -/
theorem sixteen_bytes_backed : ∃ (l : Loaded) (start : Process) (calls : List MallocCall),
    l.process.heapInit = some start ∧ start.mallocs [16#32] = some calls ∧ HeapBacked calls := by
  obtain ⟨m₀, l, start, ready, table, loaded, init, base, same, left⟩ := twoByteFile_starts
  have user : UserAddress l.cpMmap.base := by
    rw [base, UserAddress]
    decide
  obtain ⟨started, atBase, _⟩ := started_of_elfLoad ready table (twoBytes_segments 2#32) loaded user
    left.served init
  obtain ⟨calls, done, kernels⟩ := started.mallocs_return 0 [16#32] (by decide)
  rw [Started.advanced_zero atBase] at done
  refine ⟨l, start, calls, init, done, ?_⟩
  refine (user_heap_backed_iff ready table (twoBytes_segments 2#32) loaded left.served init user
    (by rw [base]; decide) (by decide) done fun c member => ?_).mpr (by decide)
  rw [kernels c member, same]
  exact left.served

/-- A request for a page takes the page at the break away. -/
theorem break_page_remapped :
    ¬ ∀ (data : U32) (phdrs : List Phdr) (m₀ : ElfMachine) (l : Loaded) (start : Process)
      (ns : List U32) (calls : List MallocCall), KernelReady m₀.kernel →
      elfPhdrs m₀.window data = some phdrs → (∀ ph ∈ phdrs, UserSegment data ph) →
      elfLoad data m₀ = some l → errNoMem ∉ l.machine.kernel.frames →
      l.process.heapInit = some start → start.mallocs ns = some calls →
      (∀ c ∈ calls, errNoMem ∉ c.after.kernel.frames) → HeapBacked calls := by
  intro always
  obtain ⟨m₀, l, start, ready, table, loaded, init, base, same, left⟩ := twoByteFile_starts
  have user : UserAddress l.cpMmap.base := by
    rw [base, UserAddress]
    decide
  obtain ⟨started, atBase, sameBase⟩ := started_of_elfLoad ready table (twoBytes_segments 2#32)
    loaded user left.served init
  have place : start.cpMmap.base.toNat = 0x8049000 := by
    rw [sameBase, base]
    rfl
  have enough : Plenty 1 4 (1 + 58) start.kernel := by rwa [same]
  obtain ⟨kernel, grown, rest⟩ := mapFresh_returns 7#32 start.cpMmap.base started.shape.window
    enough (by decide)
  have called : (start.advanced 0).malloc 0x1000#32 =
      some (start.cpMmap.base + BitVec.ofNat 32 0, Started.grownTo start 0x1000 kernel) := by
    have asked : pagesAsked (0 + (0x1000#32 : U32).toNat) = 1 := by decide
    rw [started.malloc_grows (by decide) (by decide) (by rw [place]; decide), asked, grown]
    rfl
  rw [Started.advanced_zero atBase] at called
  let call : MallocCall :=
    { n := 0x1000#32, p := start.cpMmap.base + BitVec.ofNat 32 0, before := start,
      after := Started.grownTo start 0x1000 kernel }
  have done : start.mallocs [0x1000#32] = some [call] := by
    rw [Process.mallocs, called]
    rfl
  have served : ∀ c ∈ [call], errNoMem ∉ c.after.kernel.frames := by
    rintro c (_ | ⟨_, ⟨⟩⟩)
    exact rest.served
  have backed := always _ _ m₀ l start _ _ ready table (twoBytes_segments 2#32) loaded left.served
    init done served
  have inside := (heapBacked_iff started atBase (by decide) (by rw [place]; decide) done
    served).mp backed
  exact absurd inside (by decide)

end Crunchy
