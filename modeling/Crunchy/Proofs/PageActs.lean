/-
Module: Crunchy.Proofs.PageActs
Purpose: Running out of pages. The mapping loops write whatever `k_page_alloc`
  returns, so a run maps no `ERR_NO_MEM` and moves no break over a page it does not
  have exactly when `k_page_alloc` never fails in it.
Trusted boundary: none
Main exports: Noticed, Blind, backingSystem, failure_noticed_iff, failure_not_noticed
-/
import Crunchy.Mem.PageActs
import Crunchy.Proofs.HeapBottom
import Crunchy.Proofs.PageAllocator

namespace Crunchy

open Lib Option List

/-! ### Noticing a failure -/

/-- A break moves over a page for which the allocation before it failed. `failed`
says whether the last allocation so far did. -/
def AdvancesFailed : Bool → List PageAct → Prop
  | _, [] => False
  | _, .alloc phys :: acts => AdvancesFailed (phys = errNoMem) acts
  | failed, .map _ _ _ :: acts => AdvancesFailed failed acts
  | failed, .advance _ :: acts => failed = true ∨ AdvancesFailed false acts

/-- No entry is written with `ERR_NO_MEM` as its physical address, and no break
moves over a page for which the allocation failed. -/
structure Noticed (acts : List PageAct) : Prop where
  unmapped : ∀ dir virt, PageAct.map dir errNoMem virt ∉ acts
  kept : ¬AdvancesFailed false acts

/-- A break that moves over a missing page comes after a failed allocation. -/
theorem AdvancesFailed.failed (acts : List PageAct) : ∀ {failed : Bool},
    AdvancesFailed failed acts → failed = true ∨ PageAct.alloc errNoMem ∈ acts := by
  induction acts with
  | nil => exact fun advances => advances.elim
  | cons act acts ih =>
    intro failed advances
    cases act with
    | alloc phys =>
      have advances : AdvancesFailed (decide (phys = errNoMem)) acts := advances
      rcases ih advances with isErr | later
      · rw [of_decide_eq_true isErr]
        exact Or.inr (mem_cons_self ..)
      · exact Or.inr (mem_cons_of_mem _ later)
    | map dir phys virt =>
      have advances : AdvancesFailed failed acts := advances
      rcases ih advances with now | later
      · exact Or.inl now
      · exact Or.inr (mem_cons_of_mem _ later)
    | advance virt =>
      have advances : failed = true ∨ AdvancesFailed false acts := advances
      rcases advances with now | advances
      · exact Or.inl now
      · rcases ih advances with never | later
        · cases never
        · exact Or.inr (mem_cons_of_mem _ later)

/-! ### What the loops keep -/

/-- The value of every failed allocation is written to an entry, and no other
`ERR_NO_MEM` is. -/
structure Blind (a : Acting) : Prop where
  mapped : PageAct.alloc errNoMem ∈ a.acts → ∃ dir virt, PageAct.map dir errNoMem virt ∈ a.acts
  fresh : ∀ dir virt, PageAct.map dir errNoMem virt ∈ a.acts → PageAct.alloc errNoMem ∈ a.acts

namespace Blind

variable {a : Acting}

theorem noticed_iff (blind : Blind a) :
    Noticed a.acts ↔ PageAct.alloc errNoMem ∉ a.acts := by
  constructor
  · intro noticed failed
    obtain ⟨dir, virt, written⟩ := blind.mapped failed
    exact noticed.unmapped dir virt written
  · intro served
    refine ⟨fun dir virt written => served (blind.fresh dir virt written), fun advances => ?_⟩
    rcases AdvancesFailed.failed a.acts advances with never | failed
    · cases never
    · exact served failed

theorem lift (blind : Blind a) (f : Kernel → Option Kernel) : Blind (a.lift f) :=
  ⟨blind.mapped, blind.fresh⟩

theorem backPage (blind : Blind a) (dir virt flags : U32) : Blind (a.backPage dir virt flags) := by
  rw [Acting.backPage]
  split
  · exact blind
  · split
    · exact ⟨blind.mapped, blind.fresh⟩
    · rename_i phys k _
      constructor
      · intro failed
        rcases mem_append.mp failed with before | now
        · obtain ⟨d, v, written⟩ := blind.mapped before
          exact ⟨d, v, mem_append_left _ written⟩
        · obtain rfl : errNoMem = phys := by simpa using now
          exact ⟨dir, virt, mem_append_right _ (by simp)⟩
      · intro d v written
        rcases mem_append.mp written with before | now
        · exact mem_append_left _ (blind.fresh d v before)
        · have isPhys : d = dir ∧ errNoMem = phys ∧ v = virt := by simpa using now
          rw [isPhys.2.1]
          exact mem_append_right _ (by simp)

theorem advance (blind : Blind a) (virt : U32) : Blind (a.advance virt) := by
  rw [Acting.advance]
  split
  · exact blind
  · constructor
    · intro failed
      obtain ⟨d, v, written⟩ := blind.mapped (by simpa using failed)
      exact ⟨d, v, mem_append_left _ written⟩
    · intro d v written
      exact mem_append_left _ (blind.fresh d v (by simpa using written))

theorem mapPages (dir flags : U32) (left : Nat) : ∀ (virt : U32) {a : Acting}, Blind a →
    Blind (a.mapPages dir flags left virt) := by
  induction left with
  | zero => exact fun _ _ blind => blind
  | succ left ih =>
    exact fun virt _ blind => ih _ (blind.backPage dir virt flags)

theorem sysSbrkLoop (pd : U32) (rounds : Nat) : ∀ (i : Int) (brk : U32) {a : Acting}, Blind a →
    Blind (a.sysSbrkLoop pd rounds i brk) := by
  induction rounds with
  | zero => exact fun _ _ _ blind => ⟨blind.mapped, blind.fresh⟩
  | succ rounds ih =>
    intro i brk a blind
    rw [Acting.sysSbrkLoop]
    split
    · exact ih _ _ ((blind.backPage pd brk 0x7#32).advance brk)
    · exact blind

theorem pagingMapMore (blind : Blind a) (pd virt numpages flags : U32) :
    Blind (a.pagingMapMore pd virt numpages flags) := by
  rw [Acting.pagingMapMore]
  split
  · exact blind
  · exact mapPages pd flags _ virt (blind.lift _)

theorem kCreatePagedir (blind : Blind a) (virt numpages flags : U32) :
    Blind (a.kCreatePagedir virt numpages flags) := by
  rw [Acting.kCreatePagedir]
  split
  · exact blind
  · dsimp only
    split
    · exact ⟨blind.mapped, blind.fresh⟩
    · exact (mapPages _ flags _ virt (blind.lift _)).lift _

theorem sbrkRound (blind : Blind a) (top : U32) : Blind (a.sbrkRound top) := by
  rw [Acting.sbrkRound]
  split
  · exact blind
  · split
    · exact (blind.backPage _ top _).advance top
    · exact blind.advance top

/-- `malloc` and the rest of the heap map pages through `sbrk` alone. -/
theorem keeps (writers : Writers) : (actingEnv writers).Keeps Blind where
  mapHeapPage top _ blind := blind.sbrkRound top
  memcpy _ _ _ _ blind := blind.lift _
  formatInto _ _ blind := blind.lift _

end Blind

/-! ### Runs -/

/-- The calls that map fresh pages: `sbrk`, directly or out of the heap, and the
three loops for other address spaces. -/
inductive BackingCall where
  | sbrk (n : U32)
  | malloc (n : U32)
  | mallocA (n : U32)
  | realloc (ptr n : U32)
  | sysSbrk (m : ProcMmap) (n : U32)
  | pagingMapMore (pd virt numpages flags : U32)
  | kCreatePagedir (virt numpages flags : U32)

inductive BackingStep (writers : Writers) : Heap Acting → BackingCall → Heap Acting → Prop where
  | sbrk {h h' : Heap Acting} {n r : U32}
      (done : sbrk (actingEnv writers) (printf (actingEnv writers)) n h = some (r, h')) :
      BackingStep writers h (.sbrk n) h'
  | malloc {h h' : Heap Acting} {n p : U32}
      (done : malloc (actingEnv writers) n h = some (p, h')) : BackingStep writers h (.malloc n) h'
  | mallocA {h h' : Heap Acting} {n p : U32}
      (done : mallocA (actingEnv writers) n h = some (p, h')) :
      BackingStep writers h (.mallocA n) h'
  | realloc {h h' : Heap Acting} {ptr n p : U32}
      (done : realloc (actingEnv writers) ptr n h = some (p, h')) :
      BackingStep writers h (.realloc ptr n) h'
  | sysSbrk {h : Heap Acting} (m : ProcMmap) (n : U32) :
      BackingStep writers h (.sysSbrk m n) { h with world := h.world.sysSbrk m n }
  | pagingMapMore {h : Heap Acting} (pd virt numpages flags : U32) :
      BackingStep writers h (.pagingMapMore pd virt numpages flags)
        { h with world := h.world.pagingMapMore pd virt numpages flags }
  | kCreatePagedir {h : Heap Acting} (virt numpages flags : U32) :
      BackingStep writers h (.kCreatePagedir virt numpages flags)
        { h with world := h.world.kCreatePagedir virt numpages flags }

/-- Runs from any state of the heap, the allocators and memory. -/
def backingSystem (writers : Writers) : System (Heap Acting) BackingCall where
  Start h := h.world.acts = []
  Step := BackingStep writers

theorem Blind.of_reachable {writers : Writers} {h : Heap Acting}
    (reached : (backingSystem writers).Reachable h) : Blind h.world := by
  refine reached.invariant (fun h => Blind h.world) ?_ ?_
  · intro h none
    have none : h.world.acts = [] := none
    exact ⟨by simp [none], by simp [none]⟩
  · intro before call after blind taken
    cases taken with
    | sbrk done =>
      exact (Blind.keeps writers).changes (.sbrk done) blind
    | malloc done => exact (Blind.keeps writers).changes (.malloc done) blind
    | mallocA done => exact (Blind.keeps writers).changes (.mallocA done) blind
    | realloc done => exact (Blind.keeps writers).changes (.realloc done) blind
    | sysSbrk m n => exact Blind.sysSbrkLoop m.pd _ _ _ blind
    | pagingMapMore pd virt numpages flags => exact blind.pagingMapMore pd virt numpages flags
    | kCreatePagedir virt numpages flags => exact blind.kCreatePagedir virt numpages flags

/-- In every run: running out of pages goes unnoticed as soon as it happens. No
entry is written with `ERR_NO_MEM` and no break moves over a missing page exactly
when no `k_page_alloc` of the run has failed. -/
theorem failure_noticed_iff {writers : Writers} {h : Heap Acting}
    (reached : (backingSystem writers).Reachable h) :
    Noticed h.world.acts ↔ PageAct.alloc errNoMem ∉ h.world.acts :=
  (Blind.of_reachable reached).noticed_iff

/-! ### A process that grows by a page -/

/-- A machine with the allocators `mm` and a table in every slot, before any page is
mapped. -/
private def idleHeap (mm : Mm) : Heap Acting where
  chain := []
  kHeapTop := 0xC0310000#32
  kLastAlloc := kHeapBottom
  memlock := false
  notes := []
  world :=
    { acts := []
      kernel := some
        { mm
          mem := fun _ => 0x1007#32
          kernelPageDirectory := 0xC0110000#32
          currentPageDirectory := 0xC0110000#32
          frames := [] } }

/-- `sys_sbrk` for one page writes the entry with what `k_page_alloc` returns and
moves the break. -/
private theorem idleHeap_sysSbrk {mm after : Mm} {phys : U32}
    (returned : kPageAlloc mm = some (phys, after)) (m : ProcMmap) :
    ((idleHeap mm).world.sysSbrk m 0x1000#32).acts =
      [.alloc phys, .map m.pd phys m.brk, .advance m.brk] := by
  obtain ⟨k, round⟩ : ∃ k, ((idleHeap mm).world.backPage m.pd m.brk 0x7#32).advance m.brk =
      { acts := [.alloc phys, .map m.pd phys m.brk, .advance m.brk], kernel := some k } := by
    have named : ∀ mem : Memory, (mem = fun _ => 0x1007#32) →
        dirEntry m.pd m.brk mem &&& ~~~0x3FF#32 ≠ 0#32 := by
      intro mem isTable
      rw [dirEntry, isTable]
      exact (by decide : 0x1007#32 &&& ~~~0x3FF#32 ≠ 0#32)
    simp only [idleHeap, Acting.backPage, Kernel.pageAlloc, returned, bind_eq_bind,
      bind_some, Kernel.pagingMap]
    rw [if_pos (named _ rfl)]
    exact ⟨_, rfl⟩
  have rounds : 2 ^ 19 + 1 = 524287 + 1 + 1 := by norm_num
  rw [Acting.sysSbrk, rounds, Acting.sysSbrkLoop, if_pos (by decide), round, Acting.sysSbrkLoop,
    if_neg (by decide)]

private theorem idleHeap_grown (writers : Writers) (mm : Mm) (m : ProcMmap) :
    (backingSystem writers).Reachable
      { idleHeap mm with world := (idleHeap mm).world.sysSbrk m 0x1000#32 } := by
  have starts : (backingSystem writers).Reachable (idleHeap mm) := .start rfl
  exact starts.step (BackingStep.sysSbrk m 0x1000#32)

/-- After a boot the page is there, and all is well. -/
theorem boot_page_noticed : ∃ (writers : Writers) (h : Heap Acting),
    (backingSystem writers).Reachable h ∧ PageAct.alloc 0x401000#32 ∈ h.world.acts ∧
      Noticed h.world.acts := by
  obtain ⟨mm, _, swept, _, _⟩ := boot_mm
  obtain ⟨after, returned, _⟩ := swept.alloc (by decide) (by decide)
  have grown := idleHeap_grown { memcpy := fun _ _ _ mem => mem, formatInto := fun _ mem => mem } mm
    { pd := 0xC0110000#32, base := 0x09000000#32, brk := 0x09000000#32 }
  refine ⟨_, _, grown, ?_, (failure_noticed_iff grown).mpr ?_⟩
  · rw [idleHeap_sysSbrk returned]
    exact mem_cons_self ..
  · rw [idleHeap_sysSbrk returned]
    simp [pageAddress, errNoMem]

/-- Every region is marked full. -/
private theorem fullMm : ∃ mm : Mm, kPageAlloc mm = some (errNoMem, mm) := by
  refine ⟨{ mmHeap := 0xC0200000#32
            mmHeapMax := 0xC0300000#32
            mmCurrentPd := fun _ => 0xFFFFFFFF#32
            mmCurrentPt := fun _ => 0xFFFFFFFF#32 }, kPageAlloc_exhausted ⟨Nat.le_refl _, ?_⟩⟩
  intro i inside
  have bits : ∀ j < 32, (0xFFFFFFFF#32 : U32).getLsbD j = true := by decide
  simp [Words.mem, bits (i % 32) (Nat.mod_lt _ (by decide)), inside]

/-- With memory used up, `ERR_NO_MEM` is mapped and the break moves over it. -/
theorem failure_not_noticed :
    ¬ ∀ (writers : Writers) (h : Heap Acting), (backingSystem writers).Reachable h →
      Noticed h.world.acts := by
  intro noticed
  obtain ⟨mm, failed⟩ := fullMm
  have grown := idleHeap_grown { memcpy := fun _ _ _ mem => mem, formatInto := fun _ mem => mem } mm
    { pd := 0xC0110000#32, base := 0x09000000#32, brk := 0x09000000#32 }
  have unmapped := (noticed _ _ grown).unmapped 0xC0110000#32 0x09000000#32
  rw [idleHeap_sysSbrk failed] at unmapped
  exact unmapped (by simp)

end Crunchy
