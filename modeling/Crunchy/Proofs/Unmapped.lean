/-
Module: Crunchy.Proofs.Unmapped
Purpose: What `_virt_to_phys` returns for a page that was never mapped: the guard that should
  catch an empty slot never fires. `sbrk` takes the answer for a mapping.
Trusted boundary: none
Main exports: virtToPhys_unmapped_iff, BacksNewPages, unmapped_translates_to_zero_iff
-/
import Crunchy.Mem.Allocators
import Crunchy.Proofs.Directory
import Crunchy.Proofs.HeapCalls

namespace Crunchy

open Lib List Option

variable {k : Kernel} {m : KernelMemory} {mem : Memory} {count : Nat} {f phys v virt : U32}

/-! ### With zeroed tables -/

/-- A page that becomes a table holds zeros. -/
def FreshZeroed (dir : U32) (run : DirBuild) : BuildEvent → Prop
  | .map _ virt _ => ¬ InUse dir run.kernel.mem (pdiOf virt) →
      ∀ q, q.toNat < 1024 → run.kernel.mem (cell run.kernel.mm.mmHeap q) = 0#32
  | .other => True

/-- Directories built with zeroed tables. Physical page 0 holds anything. -/
def zeroedSystem (dir : U32) : System DirBuild BuildEvent :=
  (buildSystem dir).restrict (FreshZeroed dir)

/-- In a region with a table, a page that was never mapped has a zero entry. -/
def UnmappedZero (dir : U32) (run : DirBuild) : Prop :=
  ∀ v, ¬ run.HasMapped v → InUse dir run.kernel.mem (pdiOf v) →
    virtToPhys dir v run.kernel.mem = 0#32

section Zeroed

variable {dir : U32} {run after : DirBuild} {event : BuildEvent}

theorem DirBuild.hasMapped_cons :
    DirBuild.HasMapped { kernel := k, mapped := virt :: run.mapped } v ↔
      pageOf virt = pageOf v ∨ run.HasMapped v := by
  simp only [DirBuild.HasMapped, mem_cons, exists_eq_or_imp]

theorem UnmappedZero.step (zero : UnmappedZero dir run) (holds : Built dir run)
    (fresh : FreshZeroed dir run event) (taken : BuildStep dir run event after) :
    UnmappedZero dir after := by
  cases taken with
  | map small done =>
    obtain ⟨pt, mapDone⟩ := holds.held.window.mapDone done
    intro v notMapped used
    rw [DirBuild.hasMapped_cons, not_or] at notMapped
    obtain ⟨otherPage, notBefore⟩ := notMapped
    by_cases usedBefore : InUse dir run.kernel.mem (pdiOf v)
    · rw [mapDone.virtToPhys_other holds.held small (Ne.symm otherPage) usedBefore]
      exact zero v notBefore usedBefore
    · have samePdi := ((mapDone.inUse_iff holds.held small (toNat_pdiOf_lt v)).mp
        used).resolve_right usedBefore
      rw [mapDone.virtToPhys_fresh holds.held small (Ne.symm otherPage) samePdi usedBefore]
      rw [samePdi] at usedBefore
      exact fresh usedBefore _ (toNat_ptiOf_lt v)
  | other window up slots tables =>
    intro v notMapped used
    have same := slots _ (toNat_pdiOf_lt v)
    have usedBefore := (inUse_congr same).mp used
    have entry := zero v notMapped usedBefore
    rw [virtToPhys_eq_tableAt] at entry ⊢
    rw [tableAt_congr same, tables _ _ (toNat_pdiOf_lt v) (toNat_ptiOf_lt v) usedBefore]
    exact entry

theorem UnmappedZero.of_reachable (reached : (zeroedSystem dir).Reachable run) :
    Built dir run ∧ UnmappedZero dir run := by
  refine reached.invariant (fun run => Built dir run ∧ UnmappedZero dir run) ?_ ?_
  · intro run isStart
    have empty : ∀ i, i.toNat < 1024 → run.kernel.mem (cell dir i) = 0#32 := isStart.2.2.1
    refine ⟨Built.start isStart, fun v _ used => ?_⟩
    rw [InUse, empty _ (toNat_pdiOf_lt v)] at used
    exact absurd (by decide) used
  · rintro before event after ⟨holds, zero⟩ ⟨fresh, taken⟩
    exact ⟨holds.step taken, zero.step holds fresh taken⟩

/-- Never mapped: the region has a table, or the answer is a word of physical page 0. -/
theorem virtToPhys_unmapped_iff (zero : UnmappedZero dir run) (notMapped : ¬ run.HasMapped v) :
    virtToPhys dir v run.kernel.mem = null ↔
      InUse dir run.kernel.mem (pdiOf v) ∨
        run.kernel.mem (cell kernelVirt (ptiOf v)) = 0#32 := by
  by_cases used : InUse dir run.kernel.mem (pdiOf v)
  · exact ⟨fun _ => Or.inl used, fun _ => zero v notMapped used⟩
  · rw [virtToPhys_eq_tableAt, tableAt_of_unused used]
    exact ⟨Or.inr, fun either => either.resolve_left used⟩

end Zeroed

/-! ### The rounds of `sbrk` -/

/-- A round of the loop in `sbrk`, with its mapping in the record. `none` where an
allocator has nothing left. -/
def backPage (dir top : U32) (run : DirBuild) : Option DirBuild :=
  if virtToPhys dir top run.kernel.mem = null then do
    let (phys, k) ← run.kernel.pageAlloc
    let k ← k.pagingMap dir phys top 0x3#32
    some { kernel := k, mapped := top :: run.mapped }
  else some run

/-- The rounds for `count` pages from `top` on. -/
def backPages (dir : U32) : Nat → U32 → DirBuild → Option DirBuild
  | 0, _, run => some run
  | count + 1, top, run => do
      let run ← backPage dir top run
      backPages dir count (top + 0x1000#32) run

/-- The region of `w` has a table, with the frame `f` in the entry of the page. -/
def Backed (dir : U32) (mem : Memory) (w f : U32) : Prop :=
  InUse dir mem (pdiOf w) ∧ virtToPhys dir w mem = f ||| 0x3#32

/-- Each of the `count` pages from `top` on that was not mapped before has got a frame
from `k_page_alloc`. -/
def BacksNewPages (dir : U32) (count : Nat) (top : U32) (run : DirBuild) (k : Kernel) : Prop :=
  ∀ j < count, ¬ run.HasMapped (pageAbove top j) →
    ∃ new f, k.frames = new ++ run.kernel.frames ∧ f ∈ new ∧ f ≠ errNoMem ∧
      Backed dir k.mem (pageAbove top j) f

/-- Where the first of the pages in a region finds no table, physical page 0 holds zero
in its place. -/
def FirstsClear (dir : U32) (count : Nat) (top : U32) (mem : Memory) : Prop :=
  ∀ j < count, (∀ i < j, pdiOf (pageAbove top i) ≠ pdiOf (pageAbove top j)) →
    InUse dir mem (pdiOf (pageAbove top j)) ∨
      mem (cell kernelVirt (ptiOf (pageAbove top j))) = 0#32

/-- The state between two rounds. -/
structure Backing (dir : U32) (run : DirBuild) : Prop where
  built : Built dir run
  zero : UnmappedZero dir run
  fresh : ∀ a, run.kernel.mm.mmHeap ≤ a → run.kernel.mem a = 0#32

/-- A round that finds its page unmapped. -/
structure RoundBacks (dir top : U32) (run after : DirBuild) (f : U32) : Prop where
  unseen : virtToPhys dir top run.kernel.mem = null
  mapped : after.mapped = top :: run.mapped
  frames : after.kernel.frames = f :: run.kernel.frames
  backed : Backed dir after.kernel.mem top f
  inUse : ∀ i, i.toNat < 1024 →
    (InUse dir after.kernel.mem i ↔ i = pdiOf top ∨ InUse dir run.kernel.mem i)
  others : ∀ w, pageOf w ≠ pageOf top → InUse dir run.kernel.mem (pdiOf w) →
    virtToPhys dir w after.kernel.mem = virtToPhys dir w run.kernel.mem
  currentPd : after.kernel.currentPageDirectory = run.kernel.currentPageDirectory
  pageZero : ∀ q, q.toNat < 1024 →
    after.kernel.mem (cell kernelVirt q) = run.kernel.mem (cell kernelVirt q)

/-- Physical page 0 is no page of the directory. -/
theorem pageZero_kept {dir flags pt : U32} {k' : Kernel} (holds : Held dir k)
    (apart : Apart 1024 kernelVirt dir) (step : MapDone dir phys virt flags k k' pt) {q : U32}
    (inside : q.toNat < 1024) : k'.mem (cell kernelVirt q) = k.mem (cell kernelVirt q) := by
  have isTable := (step.isOwn holds).toTablePage
  have fits : kernelVirt.toNat + 4 * 1024 ≤ 2 ^ 32 := by decide
  have apartTable : Apart 1024 kernelVirt pt := by
    have inWindow := isTable.inWindow
    have aligned := isTable.aligned
    have notFirst : pt.toNat ≠ kernelVirt.toNat := fun same =>
      isTable.notFirst (BitVec.eq_of_toNat_eq same)
    have first : kernelVirt.toNat % 4096 = 0 := by decide
    rw [BitVec.le_def] at inWindow
    rw [Apart]
    omega
  rw [step.mem]
  exact mapWords_other
    (cell_ne_of_apart fits isTable.fits apartTable inside (toNat_ptiOf_lt virt))
    (cell_ne_of_apart fits holds.dirFits apart inside (toNat_pdiOf_lt virt))

section Rounds

variable {dir top : U32} {run after : DirBuild}

/-- `k_page_alloc` is a step elsewhere in the kernel. -/
theorem Backing.alloc (holds : Backing dir run) (allocated : run.kernel.pageAlloc = some (phys, k)) :
    Backing dir { run with kernel := k } := by
  have alloc := Kernel.pageAlloc_step allocated
  obtain ⟨window, up⟩ := holds.built.held.window.pageAlloc alloc.returned
  have sameMem : ∀ a, k.mem a = run.kernel.mem a := fun a => congrFun alloc.mem a
  have elsewhere : BuildStep dir run .other { run with kernel := k } :=
    BuildStep.other window up (fun i _ => sameMem _) fun i q _ _ _ => sameMem _
  have unguarded : FreshZeroed dir run .other := trivial
  refine ⟨holds.built.step elsewhere, holds.zero.step holds.built unguarded elsewhere,
    fun a above => ?_⟩
  rw [show k.mem a = _ from sameMem a]
  apply holds.fresh
  rw [BitVec.le_def] at above ⊢
  exact Nat.le_trans up above

/-- A mapping takes its table, if it needs one, from zeroed memory. -/
theorem Backing.map (holds : Backing dir run)
    (mapped : run.kernel.pagingMap dir phys top 0x3#32 = some k) :
    Backing dir { kernel := k, mapped := top :: run.mapped } := by
  have mapStep : BuildStep dir run (.map phys top 0x3#32)
      { kernel := k, mapped := top :: run.mapped } := BuildStep.map (by decide) mapped
  obtain ⟨pt, mapDone⟩ := holds.built.held.window.mapDone mapped
  have freshZeroed : FreshZeroed dir run (.map phys top 0x3#32) := by
    intro _ q inside
    apply holds.fresh
    rw [BitVec.le_def, toNat_cell holds.built.held.freshTable.fits inside]
    exact Nat.le_add_right _ _
  refine ⟨holds.built.step mapStep, holds.zero.step holds.built freshZeroed mapStep,
    fun a above => ?_⟩
  rw [mapDone.above holds.built.held.below (mapDone.isOwn holds.built.held) above]
  apply holds.fresh
  have moved := mapDone.up
  rw [BitVec.le_def] at above ⊢
  exact Nat.le_trans moved above

theorem backPage_cases (holds : Backing dir run) (apart : Apart 1024 kernelVirt dir)
    (done : backPage dir top run = some after) :
    Backing dir after ∧ ((virtToPhys dir top run.kernel.mem ≠ null ∧ after = run) ∨
      ∃ f, RoundBacks dir top run after f) := by
  rw [backPage] at done
  by_cases unseen : virtToPhys dir top run.kernel.mem = null
  · rw [if_pos unseen] at done
    obtain ⟨⟨phys, k₁⟩, allocated, done⟩ := bind_eq_some_iff.mp done
    obtain ⟨k₂, mapped, done⟩ := bind_eq_some_iff.mp done
    cases done
    have alloc := Kernel.pageAlloc_step allocated
    have sameMem : ∀ a, k₁.mem a = run.kernel.mem a := fun a => congrFun alloc.mem a
    have middle := holds.alloc allocated
    have held : Held dir k₁ := middle.built.held
    obtain ⟨pt, mapDone⟩ := held.window.mapDone mapped
    refine ⟨middle.map mapped, Or.inr ⟨phys, ?_⟩⟩
    constructor
    case unseen => exact unseen
    case mapped => rfl
    case frames => rw [mapDone.frames, alloc.frames]
    case backed =>
      exact ⟨(mapDone.slot held (by decide)).1, mapDone.virtToPhys_self held (by decide) rfl⟩
    case inUse =>
      intro i inside
      rw [mapDone.inUse_iff held (by decide) inside, inUse_congr (sameMem _)]
    case others =>
      intro w other used
      rw [mapDone.virtToPhys_other held (by decide) other ((inUse_congr (sameMem _)).mpr used),
        alloc.mem]
    case currentPd => exact mapDone.currentPd.trans alloc.currentPd
    case pageZero =>
      intro q inside
      rw [pageZero_kept held apart mapDone inside]
      exact sameMem _
  · rw [if_neg unseen] at done
    cases done
    exact ⟨holds, Or.inl ⟨unseen, rfl⟩⟩

/-- What several rounds leave alone. -/
structure RoundsKeep (dir : U32) (count : Nat) (top : U32) (run after : DirBuild) : Prop where
  frames : ∃ new, after.kernel.frames = new ++ run.kernel.frames
  mapped : ∀ v, after.HasMapped v →
    run.HasMapped v ∨ ∃ j < count, pageOf (pageAbove top j) = pageOf v
  backed : ∀ w f, (∀ j < count, pageOf w ≠ pageOf (pageAbove top j)) →
    Backed dir run.kernel.mem w f → Backed dir after.kernel.mem w f

/-- The frame of a round comes before those of the later rounds. -/
theorem RoundBacks.all_frames (round : RoundBacks dir top run after f) {frames new : List U32}
    (later : frames = new ++ after.kernel.frames) :
    frames = new ++ [f] ++ run.kernel.frames := by
  rw [later, round.frames, append_assoc, singleton_append]

theorem RoundBacks.hasMapped_iff (round : RoundBacks dir top run after f) :
    after.HasMapped v ↔ pageOf top = pageOf v ∨ run.HasMapped v := by
  simp only [DirBuild.HasMapped, round.mapped, mem_cons, exists_eq_or_imp]

theorem backPages_keep (holds : Backing dir run) (apart : Apart 1024 kernelVirt dir)
    (done : backPages dir count top run = some after) :
    Backing dir after ∧ RoundsKeep dir count top run after := by
  induction count generalizing top run with
  | zero =>
    cases done
    exact ⟨holds, ⟨[], rfl⟩, fun v wasMapped => Or.inl wasMapped, fun w f _ => id⟩
  | succ count ih =>
    obtain ⟨mid, first, restDone⟩ := bind_eq_some_iff.mp done
    obtain ⟨holdsMid, cases⟩ := backPage_cases holds apart first
    obtain ⟨holdsAfter, rest⟩ := ih holdsMid restDone
    obtain ⟨new, newFrames⟩ := rest.frames
    have restMapped : ∀ v, after.HasMapped v →
        mid.HasMapped v ∨ ∃ j < count + 1, pageOf (pageAbove top j) = pageOf v := by
      intro v isMapped
      rcases rest.mapped v isMapped with before | ⟨j, inside, samePage⟩
      · exact Or.inl before
      · rw [pageAbove_succ] at samePage
        exact Or.inr ⟨j + 1, by omega, samePage⟩
    have restBacked : ∀ w f, (∀ j < count + 1, pageOf w ≠ pageOf (pageAbove top j)) →
        Backed dir mid.kernel.mem w f → Backed dir after.kernel.mem w f := by
      intro w f otherPages
      exact rest.backed w f (outside_cons otherPages).2
    refine ⟨holdsAfter, ?_⟩
    rcases cases with ⟨_, rfl⟩ | ⟨f, round⟩
    · exact ⟨⟨new, newFrames⟩, restMapped, restBacked⟩
    · refine ⟨⟨new ++ [f], round.all_frames newFrames⟩, fun v isMapped => ?_,
        fun w g otherPages isBacked => ?_⟩
      · rcases restMapped v isMapped with before | later
        · rcases round.hasMapped_iff.mp before with isTop | before
          · exact Or.inr ⟨0, by omega, by rwa [pageAbove_zero]⟩
          · exact Or.inl before
        · exact Or.inr later
      · have notTop := (outside_cons otherPages).1
        refine restBacked w g otherPages ⟨?_, ?_⟩
        · exact (round.inUse _ (toNat_pdiOf_lt w)).mpr (Or.inr isBacked.1)
        · rw [round.others w notTop isBacked.1]
          exact isBacked.2

/-- A first page that is in order, and the pages behind it. -/
theorem firstsClear_succ {mem' : Memory}
    (first : InUse dir mem (pdiOf top) ∨ mem (cell kernelVirt (ptiOf top)) = 0#32)
    (inUse : ∀ i, i.toNat < 1024 → (InUse dir mem' i ↔ i = pdiOf top ∨ InUse dir mem i))
    (pageZero : ∀ q, q.toNat < 1024 → mem' (cell kernelVirt q) = mem (cell kernelVirt q)) :
    FirstsClear dir (count + 1) top mem ↔ FirstsClear dir count (top + 0x1000#32) mem' := by
  constructor
  · intro clear j inside isFirst
    rw [inUse _ (toNat_pdiOf_lt _), pageZero _ (toNat_ptiOf_lt _)]
    rw [pageAbove_succ] at isFirst ⊢
    by_cases sameRegion : pdiOf (pageAbove top (j + 1)) = pdiOf top
    · exact Or.inl (Or.inl sameRegion)
    · have isFirstNow : ∀ i < j + 1, pdiOf (pageAbove top i) ≠ pdiOf (pageAbove top (j + 1)) := by
        intro i below
        cases i with
        | zero =>
          rw [pageAbove_zero]
          exact Ne.symm sameRegion
        | succ i =>
          have earlier := isFirst i (by omega)
          rwa [pageAbove_succ] at earlier
      rcases clear (j + 1) (by omega) isFirstNow with used | zero
      · exact Or.inl (Or.inr used)
      · exact Or.inr zero
  · intro clear j inside isFirst
    cases j with
    | zero =>
      rw [pageAbove_zero]
      exact first
    | succ j =>
      have notTop : pdiOf (pageAbove top (j + 1)) ≠ pdiOf top := by
        have earlier := isFirst 0 (by omega)
        rw [pageAbove_zero] at earlier
        exact Ne.symm earlier
      have isFirstNow : ∀ i < j, pdiOf (pageAbove (top + 0x1000#32) i) ≠
          pdiOf (pageAbove (top + 0x1000#32) j) := by
        intro i below
        rw [pageAbove_succ, pageAbove_succ]
        exact isFirst (i + 1) (by omega)
      have later := clear j (by omega) isFirstNow
      rw [inUse _ (toNat_pdiOf_lt _), pageZero _ (toNat_ptiOf_lt _), pageAbove_succ] at later
      rcases later with (isTop | used) | zero
      · exact absurd isTop notTop
      · exact Or.inl used
      · exact Or.inr zero

/-- A region in use has no page left to be in order. -/
theorem firstsClear_tail (used : InUse dir mem (pdiOf top)) :
    FirstsClear dir (count + 1) top mem ↔ FirstsClear dir count (top + 0x1000#32) mem :=
  firstsClear_succ (Or.inl used)
    (fun _ _ => ⟨Or.inr, fun either => either.elim (fun isTop => isTop ▸ used) id⟩)
    fun _ _ => rfl

/-- A round that backs its page found it in order. -/
theorem RoundBacks.first (round : RoundBacks dir top run after f) :
    InUse dir run.kernel.mem (pdiOf top) ∨
      run.kernel.mem (cell kernelVirt (ptiOf top)) = 0#32 := by
  by_cases used : InUse dir run.kernel.mem (pdiOf top)
  · exact Or.inl used
  · have unseen := round.unseen
    rw [virtToPhys_eq_tableAt, tableAt_of_unused used] at unseen
    exact Or.inr unseen

theorem backs_of_firstsClear (holds : Backing dir run) (apart : Apart 1024 kernelVirt dir)
    (few : count ≤ 2 ^ 20) (done : backPages dir count top run = some after)
    (served : ∀ new, after.kernel.frames = new ++ run.kernel.frames → errNoMem ∉ new)
    (clear : FirstsClear dir count top run.kernel.mem) :
    BacksNewPages dir count top run after.kernel := by
  induction count generalizing top run with
  | zero => exact fun j inside => absurd inside (Nat.not_lt_zero j)
  | succ count ih =>
    obtain ⟨mid, first, restDone⟩ := bind_eq_some_iff.mp done
    obtain ⟨holdsMid, cases⟩ := backPage_cases holds apart first
    obtain ⟨_, rest⟩ := backPages_keep holdsMid apart restDone
    intro j inside notMapped
    rcases cases with ⟨seen, rfl⟩ | ⟨f, round⟩
    · -- a page that is seen where it is not mapped is the first of its region
      have used : InUse dir mid.kernel.mem (pdiOf top) := by
        by_contra unused
        have clearTop := clear 0 (by omega) fun i below => absurd below (Nat.not_lt_zero i)
        rw [pageAbove_zero] at clearTop
        rw [virtToPhys_eq_tableAt, tableAt_of_unused unused] at seen
        exact seen (clearTop.resolve_left unused)
      cases j with
      | zero =>
        rw [pageAbove_zero] at notMapped
        exact absurd (holds.zero top notMapped used) seen
      | succ j =>
        have backed := ih holds (by omega) restDone served
          ((firstsClear_tail used).mp clear) j (by omega)
        rw [pageAbove_succ] at backed
        exact backed notMapped
    · cases j with
      | zero =>
        obtain ⟨new, newFrames⟩ := rest.frames
        rw [pageAbove_zero]
        refine ⟨new ++ [f], f, round.all_frames newFrames, by simp, ?_,
          rest.backed top f (fun j below => first_page_ne rfl (by omega)) round.backed⟩
        rintro rfl
        exact served _ (round.all_frames newFrames) (by simp)
      | succ j =>
        have clearRest := (firstsClear_succ round.first round.inUse round.pageZero).mp clear
        have stillNot : ¬ mid.HasMapped (pageAbove (top + 0x1000#32) j) := by
          rw [round.hasMapped_iff, pageAbove_succ, not_or]
          exact ⟨pageOf_ne_pageAbove (by omega), notMapped⟩
        have servedRest : ∀ new, after.kernel.frames = new ++ mid.kernel.frames →
            errNoMem ∉ new := fun new newFrames refused =>
          served _ (round.all_frames newFrames) (mem_append_left _ refused)
        obtain ⟨new, g, newFrames, member, notError, backed⟩ := ih holdsMid
          (by omega) restDone servedRest clearRest j (by omega) stillNot
        rw [pageAbove_succ] at backed
        exact ⟨new ++ [f], g, round.all_frames newFrames, mem_append_left _ member,
          notError, backed⟩

theorem firstsClear_of_backs (holds : Backing dir run) (apart : Apart 1024 kernelVirt dir)
    (few : count ≤ 2 ^ 20) (done : backPages dir count top run = some after)
    (backs : ∀ j < count, ¬ run.HasMapped (pageAbove top j) →
      ∃ f, Backed dir after.kernel.mem (pageAbove top j) f) :
    FirstsClear dir count top run.kernel.mem := by
  induction count generalizing top run with
  | zero => exact fun j inside => absurd inside (Nat.not_lt_zero j)
  | succ count ih =>
    obtain ⟨mid, first, restDone⟩ := bind_eq_some_iff.mp done
    obtain ⟨holdsMid, cases⟩ := backPage_cases holds apart first
    obtain ⟨holdsAfter, rest⟩ := backPages_keep holdsMid apart restDone
    rcases cases with ⟨seen, rfl⟩ | ⟨f, round⟩
    · have used : InUse dir mid.kernel.mem (pdiOf top) := by
        by_contra unused
        have notMapped : ¬ mid.HasMapped top := fun isMapped =>
          unused (holds.built.inUse top isMapped)
        obtain ⟨f, usedAfter, entry⟩ := backs 0 (by omega) (by rwa [pageAbove_zero])
        rw [pageAbove_zero] at usedAfter entry
        -- no round maps it, so its entry is zero should its region get a table
        have stillNot : ¬ after.HasMapped top := by
          intro isMapped
          rcases rest.mapped top isMapped with before | ⟨j, below, samePage⟩
          · exact notMapped before
          · exact first_page_ne rfl (by omega) samePage.symm
        rw [holdsAfter.zero top stillNot usedAfter, eq_comm, BitVec.or_eq_zero_iff] at entry
        exact absurd entry.2 (by decide)
      refine (firstsClear_tail used).mpr
        (ih holds (by omega) restDone fun j below => ?_)
      rw [pageAbove_succ]
      exact backs (j + 1) (by omega)
    · refine (firstsClear_succ round.first round.inUse round.pageZero).mpr
        (ih holdsMid (by omega) restDone fun j below => ?_)
      rw [pageAbove_succ, round.hasMapped_iff, not_or]
      exact fun notMapped => backs (j + 1) (by omega) notMapped.2

/-! ### `sbrk` -/

/-- Where the allocators serve it, a round of `sbrk` is the recorded one. -/
theorem mapHeapPage_backPage (kernel : m.kernel = run.kernel)
    (current : run.kernel.currentPageDirectory = dir) (done : backPage dir top run = some after) :
    ∃ m', mapHeapPage top m = some m' ∧ m'.kernel = after.kernel := by
  rw [backPage] at done
  simp only [mapHeapPage, kernel, current]
  by_cases unseen : virtToPhys dir top run.kernel.mem = null
  · rw [if_pos unseen] at done ⊢
    obtain ⟨⟨phys, k₁⟩, allocated, done⟩ := bind_eq_some_iff.mp done
    obtain ⟨k₂, mapped, done⟩ := bind_eq_some_iff.mp done
    cases done
    have machine := m.pageAlloc_kernel
    rw [kernel, allocated] at machine
    obtain ⟨⟨frame, m₁⟩, returned, same⟩ := map_eq_some_iff.mp machine
    cases same
    refine ⟨m₁.pagingMap dir frame top 0x3#32, ?_, KernelMemory.pagingMap_kernel mapped⟩
    rw [returned]
    rfl
  · rw [if_neg unseen] at done ⊢
    cases done
    exact ⟨m, rfl, kernel⟩

theorem sbrkLoop_backPages (writers : Writers) (holds : Backing dir run)
    (apart : Apart 1024 kernelVirt dir) {h : Heap (Option KernelMemory)} (world : h.world = some m)
    (kernel : m.kernel = run.kernel) (current : run.kernel.currentPageDirectory = dir)
    (done : backPages dir count h.kHeapTop run = some after) :
    ∃ m', (sbrkLoop (memoryEnv writers) count h).world = some m' ∧ m'.kernel = after.kernel := by
  induction count generalizing h m run with
  | zero =>
    cases done
    exact ⟨m, world, kernel⟩
  | succ count ih =>
    obtain ⟨mid, first, restDone⟩ := bind_eq_some_iff.mp done
    obtain ⟨holdsMid, cases⟩ := backPage_cases holds apart first
    obtain ⟨m₁, round, kernelMid⟩ := mapHeapPage_backPage kernel current first
    have currentMid : mid.kernel.currentPageDirectory = dir := by
      rcases cases with ⟨_, rfl⟩ | ⟨f, round⟩
      · exact current
      · exact round.currentPd.trans current
    rw [sbrkLoop]
    refine ih holdsMid ?_ kernelMid currentMid restDone
    show h.world.bind (mapHeapPage h.kHeapTop) = some m₁
    rw [world]
    exact round

end Rounds

/-- In a directory built with zeroed tables, a page that was never mapped translates to
zero exactly when its region has a table or physical page 0 holds zero in its place; and
`sbrk`, its requests served, backs every page it adds that was not mapped before exactly
when this is so for the first added page of each region. -/
theorem unmapped_translates_to_zero_iff {dir : U32} {run : DirBuild}
    (reached : (zeroedSystem dir).Reachable run) (apart : Apart 1024 kernelVirt dir) :
    (∀ v, ¬ run.HasMapped v →
      (virtToPhys dir v run.kernel.mem = null ↔
        InUse dir run.kernel.mem (pdiOf v) ∨
          run.kernel.mem (cell kernelVirt (ptiOf v)) = 0#32)) ∧
    ∀ (writers : Writers)
      (printf : Heap (Option KernelMemory) → Option (Heap (Option KernelMemory)))
      (h : Heap (Option KernelMemory)) (m : KernelMemory) (n : U32) (after : DirBuild),
      h.world = some m → m.kernel = run.kernel → run.kernel.currentPageDirectory = dir →
      (∀ a, run.kernel.mm.mmHeap ≤ a → run.kernel.mem a = 0#32) →
      n ≠ 0#32 → ¬ kHeapMax ≤ n + h.kHeapTop →
      backPages dir (numOfBlocks n).toNat h.kHeapTop run = some after →
      (∀ new, after.kernel.frames = new ++ run.kernel.frames → errNoMem ∉ new) →
      ∃ h' m', sbrk (memoryEnv writers) printf n h = some (h'.kHeapTop, h') ∧ h'.world = some m' ∧
        (BacksNewPages dir (numOfBlocks n).toNat h.kHeapTop run m'.kernel ↔
          FirstsClear dir (numOfBlocks n).toNat h.kHeapTop run.kernel.mem) := by
  obtain ⟨built, zero⟩ := UnmappedZero.of_reachable reached
  refine ⟨fun v => virtToPhys_unmapped_iff zero, ?_⟩
  intro writers printf h m n after world kernel current fresh positive room done served
  have holds : Backing dir run := ⟨built, zero, fresh⟩
  have few : (numOfBlocks n).toNat ≤ 2 ^ 20 := by
    rw [toNat_numOfBlocks]
    omega
  have noted : (h.noteSum n h.kHeapTop).world = some m := world
  obtain ⟨m', grown, kernelAfter⟩ :=
    sbrkLoop_backPages writers (h := h.noteSum n h.kHeapTop) holds apart noted kernel current done
  refine ⟨_, m', ?_, grown, ?_⟩
  · rw [sbrk, if_neg positive]
    exact if_neg room
  · rw [kernelAfter]
    refine ⟨fun backs => ?_, backs_of_firstsClear holds apart few done served⟩
    refine firstsClear_of_backs holds apart few done fun j inside notMapped => ?_
    obtain ⟨_, f, _, _, _, backed⟩ := backs j inside notMapped
    exact ⟨f, backed⟩

/-- The first page of the heap is backed where the first word of physical page 0 is
zero. -/
theorem first_heap_page_backed :
    ∃ (run : DirBuild) (h h' : Heap (Option KernelMemory)) (m' : KernelMemory),
      h.kHeapTop = kHeapBottom ∧
      sbrk (memoryEnv ⟨fun _ _ _ mem => mem, fun _ mem => mem⟩) some 1#32 h =
        some (h'.kHeapTop, h') ∧ h'.world = some m' ∧
      BacksNewPages 0xC0101000#32 1 kHeapBottom run m'.kernel := by
  obtain ⟨mm, init, swept, heap, heapMax⟩ := boot_mm
  have window := kMmInit_heapWindow (by decide) (by decide) (by decide) init
  obtain ⟨mm₁, returned, _, heap₁, heapMax₁⟩ := swept.alloc (by decide) (by decide)
  have window₁ := (window.pageAlloc returned).1
  have room : HeapRoom mm₁ (0 + 1) := by
    rw [HeapRoom, heap₁, heapMax₁, heap, heapMax]
    decide
  obtain ⟨mm₂, allocated, notNull, _⟩ := mmAlloc_of_room window₁ room
  let run := emptyBuild mm 0#32
  have clear : ∀ a, run.kernel.mem a = 0#32 := fun a => ite_self _
  obtain ⟨after, done, frames⟩ : ∃ after, backPages 0xC0101000#32 1 kHeapBottom run = some after ∧
      after.kernel.frames = [pageAddress 1 1] := by
    have unseen : virtToPhys 0xC0101000#32 kHeapBottom run.kernel.mem = null := by
      rw [virtToPhys_eq_tableAt]
      exact clear _
    have empty : ¬ dirEntry 0xC0101000#32 kHeapBottom run.kernel.mem &&& ~~~0x3FF#32 ≠ 0#32 := by
      rw [dirEntry, clear]
      decide
    have page : run.kernel.pageAlloc = some (pageAddress 1 1,
        { run.kernel with mm := mm₁, frames := [pageAddress 1 1] }) := by
      rw [Kernel.pageAlloc]
      show (kPageAlloc mm).bind _ = _
      rw [returned]
      rfl
    refine ⟨⟨{ run.kernel with
      mm := mm₂
      frames := [pageAddress 1 1]
      mem := pagingMap mm₁.mmHeap 0xC0101000#32 (pageAddress 1 1) kHeapBottom 0x3#32
        run.kernel.mem }, [kHeapBottom]⟩, ?_, rfl⟩
    rw [backPages, backPage, if_pos unseen, page]
    simp only [bind_eq_bind, bind_some]
    rw [Kernel.pagingMap, if_neg empty, allocated]
    dsimp only
    rw [if_neg notNull]
    rfl
  have reached : (zeroedSystem 0xC0101000#32).Reachable run :=
    System.Reachable.start (emptyBuild_start window heap 0#32)
  have belowMax : ¬ kHeapMax ≤ 1#32 + kHeapBottom := by decide
  have apart : Apart 1024 kernelVirt 0xC0101000#32 := by
    rw [Apart]
    decide
  have served : ∀ new, after.kernel.frames = new ++ run.kernel.frames → errNoMem ∉ new := by
    intro new newFrames
    have isNew : new = [pageAddress 1 1] := by
      rw [frames] at newFrames
      exact (newFrames.trans (append_nil new)).symm
    rw [isNew]
    decide
  obtain ⟨h', m', grown, world, backs⟩ := (unmapped_translates_to_zero_iff reached apart).2
    ⟨fun _ _ _ mem => mem, fun _ mem => mem⟩ some
    { chain := [], kHeapTop := kHeapBottom, kLastAlloc := kHeapBottom, memlock := false,
      notes := [], world := some { kernel := run.kernel, handed := [] } }
    { kernel := run.kernel, handed := [] } 1#32 after rfl rfl rfl (fun a _ => clear a) (by decide)
    belowMax done served
  exact ⟨run, _, h', m', rfl, grown, world, backs.mpr fun j _ _ => Or.inr (clear _)⟩

/-- Address 0 is not mapped, and translates to the first word of physical page 0. -/
theorem page_zero_word_returned :
    ¬ ∀ (dir : U32) (run : DirBuild), (zeroedSystem dir).Reachable run →
      ∀ v, ¬ run.HasMapped v → virtToPhys dir v run.kernel.mem = null := by
  intro translates
  have window : HeapWindow (mmBare 0xC0108000#32 0xC0300000#32) :=
    ⟨by decide, by decide, by decide, by decide⟩
  have notMapped : ¬ (emptyBuild (mmBare 0xC0108000#32 0xC0300000#32) 0xF000FF53#32).HasMapped
      0#32 := by
    rintro ⟨_, member, _⟩
    cases member
  have started := emptyBuild_start window rfl 0xF000FF53#32
  have zero := translates _ _ (System.Reachable.start started) 0#32 notMapped
  exact absurd zero (by decide)

end Crunchy
