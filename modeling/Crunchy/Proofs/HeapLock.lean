/-
Module: Crunchy.Proofs.HeapLock
Purpose: The heap's lock. It is not re-entrant, and the reports of `sbrk` and
  `translate` go through `printf`, which allocates: which calls come back, in every
  reachable state.
Trusted boundary: none
Main exports: Returns, MallocReports, MallocAReports, calls_return_iff
-/
import Crunchy.Proofs.HeapErrors

namespace Crunchy

open Lib Option List

variable {W : Type} {env : HeapEnv W}

/-- A call comes back, and the lock is free then. A call that waits for a lock its
own caller holds has no result. -/
def Returns {Result : Type} (result : Option (Result × Heap W)) : Prop :=
  ∃ r h', result = some (r, h') ∧ h'.memlock = false

/-! ### The reports -/

/-- `translate(b)` finds an address past the heap's end. -/
def TranslateReports (b : Nat) (h : Heap W) : Prop :=
  b ≤ h.chain.length ∧ h.kLastAlloc < kHeapBottom + sizeBefore h.chain b

/-- `sbrk(m)` finds the heap full. -/
def SbrkReports (m top : U32) : Prop :=
  m ≠ 0#32 ∧ kHeapMax ≤ m + top

/-- `malloc(n)` comes to a report, all sums taken in 32 bits: for a free block
whose address is past the heap's end, or for a new block that `sbrk` has no room
for. -/
def MallocReports (n : U32) (h : Heap W) : Prop :=
  n ≠ 0#32 ∧
  ((∃ i, findBestFree n h.chain = some (some i) ∧ TranslateReports i h) ∨
  (findBestFree n h.chain = some none ∧ h.chain.length ≤ maxBlocks ∧
    h.kHeapTop ≤ h.kLastAlloc + n ∧
    SbrkReports (2#32 * ((n + h.kLastAlloc) - h.kHeapTop)) h.kHeapTop))

/-- `malloc_a(n)` comes to a report whose own buffer comes to one: while it makes
the padding, or when it looks at the top after its block. -/
def MallocAReports (env : HeapEnv W) (n : U32) (h : Heap W) : Prop :=
  (pageDiff h.kLastAlloc ≠ 0x1000#32 ∧ h.chain.length ≤ maxBlocks ∧
    TranslateReports h.chain.length (withPad h) ∧ MallocReports 256#32 (withPad h)) ∨
  ∃ mid, padToPage env h = some (true, mid) ∧ mid.chain.length ≤ maxBlocks ∧
    mid.kHeapTop ≤ (withBlock n mid).kLastAlloc ∧
    SbrkReports (((withBlock n mid).kLastAlloc - mid.kHeapTop) + 0x1000#32) mid.kHeapTop ∧
    MallocReports 256#32 (withBlock n mid)

/-! ### Which calls come back -/

/-- What follows a call without hanging hangs only with it. -/
theorem bind_some_eq_none_iff {One Two : Type} {result : Option One} {next : One → Two} :
    (result.bind fun r => some (next r)) = none ↔ result = none := by
  cases result <;> simp

section Calls

variable {n : U32} {h : Heap W}

theorem brk_eq_none_iff {m top : U32} : brk m top = none ↔ SbrkReports m top := by
  rw [brk, SbrkReports]
  split
  · simp_all
  · split <;> simp_all

theorem topAfter_eq_none_iff : topAfter n h = none ↔
    h.kHeapTop ≤ h.kLastAlloc + n ∧
      SbrkReports (2#32 * ((n + h.kLastAlloc) - h.kHeapTop)) h.kHeapTop := by
  rw [topAfter]
  split
  · rename_i reaches
    rw [brk_eq_none_iff]
    simp [reaches]
  · rename_i below
    simp [below]

/-- `malloc` hangs exactly when it has something to report. -/
theorem malloc_eq_none_iff (env : HeapEnv W) (unlocked : h.memlock = false) :
    malloc env n h = none ↔ MallocReports n h := by
  by_cases isZero : n = 0#32
  · subst isZero
    simp [MallocReports]
  · obtain ⟨found, search, best⟩ := findBestFree_spec isZero h.chain
    rw [MallocReports, search]
    cases found with
    | some i =>
      have inside := Nat.le_of_lt best.1
      rw [malloc_reuse env isZero unlocked search best.1]
      split
      · rename_i above
        simp [isZero, TranslateReports, inside, above]
      · rename_i low
        simp [isZero, TranslateReports, low]
    | none =>
      by_cases full : maxBlocks < h.chain.length
      · rw [malloc_refused env isZero unlocked search full]
        simp [Nat.not_le.mpr full]
      · have room := Nat.le_of_not_lt full
        simp only [room, isZero, ne_eq, not_false_eq_true, true_and, reduceCtorEq,
          Option.some.injEq, false_and, exists_false, false_or, ← topAfter_eq_none_iff]
        cases growth : topAfter n h with
        | none =>
          simp [malloc_hangs env isZero unlocked search room growth]
        | some top =>
          obtain ⟨notes, equation, _⟩ :=
            malloc_new env isZero unlocked search room growth
          rw [equation]
          simp

/-- `free` has nothing to report. -/
theorem free_ne_none (unlocked : h.memlock = false) (ptr : U32) : free ptr h ≠ none := by
  rw [free_eq unlocked]
  simp

/-- `printf` hangs exactly when the `malloc` of its buffer does. -/
theorem printf_eq_none_iff (env : HeapEnv W) (unlocked : h.memlock = false) :
    printf env h = none ↔ MallocReports 256#32 h := by
  rw [← malloc_eq_none_iff env unlocked, printf, printfWith]
  cases allocated : malloc env 256#32 h with
  | none => simp
  | some result =>
    have midUnlocked := (Changes.malloc allocated).unlocked unlocked
    simp only [bind_eq_bind, bind_some, bind_some_eq_none_iff]
    rw [free_eq]
    · simp
    · exact midUnlocked

theorem translate_eq_none_iff (env : HeapEnv W) (unlocked : h.memlock = false) {b : Nat} :
    translate (printf env) b h = none ↔ TranslateReports b h ∧ MallocReports 256#32 h := by
  rw [translate, TranslateReports, ← printf_eq_none_iff env unlocked]
  split
  · rename_i beyond
    simp [Nat.not_le.mpr beyond]
  · rename_i known
    dsimp only
    split
    · rename_i above
      rw [bind_eq_bind, bind_some_eq_none_iff]
      simp [Nat.le_of_not_lt known, above]
    · rename_i low
      simp [low]

theorem sbrk_eq_none_iff (env : HeapEnv W) (unlocked : h.memlock = false) {m : U32} :
    sbrk env (printf env) m h = none ↔ SbrkReports m h.kHeapTop ∧ MallocReports 256#32 h := by
  rw [← brk_eq_none_iff]
  cases room : brk m h.kHeapTop with
  | some top =>
    obtain ⟨r, notes, equation, _⟩ := sbrk_eq_some env (printf env) room
    rw [equation]
    simp
  | none =>
    have printed := printf_eq_none_iff env
      (h := { h with notes := .heapFull :: sumNotes m h.kHeapTop h.notes }) unlocked
    rw [sbrk_eq_full env room, bind_some_eq_none_iff, printed]
    simp [MallocReports, TranslateReports]

theorem padToPage_eq_none_iff (env : HeapEnv W) (unlocked : h.memlock = false) :
    padToPage env h = none ↔ pageDiff h.kLastAlloc ≠ 0x1000#32 ∧ h.chain.length ≤ maxBlocks ∧
      TranslateReports h.chain.length (withPad h) ∧ MallocReports 256#32 (withPad h) := by
  rw [← translate_eq_none_iff env (h := withPad h) unlocked, padToPage_eq]
  split
  · rename_i onPage
    simp [onPage]
  · rename_i off
    split
    · rename_i full
      simp [Nat.not_le.mpr full]
    · rename_i room
      cases translated : translate (printf env) h.chain.length (withPad h) with
      | none => simp [off, Nat.le_of_not_lt room]
      | some result =>
        have midUnlocked := (Changes.translate translated).unlocked unlocked
        rw [bind_some, free_eq midUnlocked]
        simp

/-- `malloc_a` hangs exactly when a report of its own finds no buffer without a
second report. -/
theorem mallocA_eq_none_iff (unlocked : h.memlock = false) :
    mallocA env n h = none ↔ MallocAReports env n h := by
  rw [mallocA_eq, MallocAReports, ← padToPage_eq_none_iff env unlocked]
  cases padded : padToPage env h with
  | none => simp
  | some result =>
    obtain ⟨r, mid⟩ := result
    have midUnlocked := (Changes.padToPage padded).unlocked unlocked
    have grown := sbrk_eq_none_iff env (h := withBlock n mid) midUnlocked
      (m := ((withBlock n mid).kLastAlloc - mid.kHeapTop) + 0x1000#32)
    have sameTop : (withBlock n mid).kHeapTop = mid.kHeapTop := rfl
    rw [sameTop] at grown
    cases r with
    | false => simp
    | true =>
      by_cases full : maxBlocks < mid.chain.length
      · simp [full, Nat.not_le.mpr full]
      · by_cases reaches : mid.kHeapTop ≤ (withBlock n mid).kLastAlloc
        · simp only [bind_some, Bool.true_eq_false, if_false, full, reaches, if_true,
            bind_some_eq_none_iff, grown]
          simp [Nat.le_of_not_lt full, reaches]
        · simp [full, reaches]

end Calls

theorem free_unlocked {h h' : Heap W} {ptr r : U32} (done : free ptr h = some (r, h')) :
    h'.memlock = false := by
  rw [(free_outcome done).2]

theorem returns_of_ne_none {Result : Type} {result : Option (Result × Heap W)}
    (steady : ∀ r h', result = some (r, h') → h'.memlock = false) :
    Returns result ↔ result ≠ none := by
  constructor
  · rintro ⟨r, h', done, _⟩ none
    rw [none] at done
    cases done
  · intro some
    obtain ⟨⟨r, h'⟩, done⟩ := ne_none_iff_exists'.mp some
    exact ⟨r, h', done, steady r h' done⟩

/-! ### Every reachable state -/

/-- The lock is free between any two calls of any run. -/
theorem unlocked_of_reachable {run : HeapRun W} (reached : (heapSystem env).Reachable run) :
    run.heap.memlock = false := by
  refine reached.invariant (fun run => run.heap.memlock = false) ?_ ?_
  · rintro run ⟨⟨world, init⟩, _⟩
    rw [eq_freshHeap init]
    rfl
  · intro before event after unlocked taken
    cases taken with
    | malloc done => exact (Changes.malloc done).unlocked unlocked
    | mallocA done => exact (Changes.mallocA done).unlocked unlocked
    | realloc done => exact (Changes.realloc done).unlocked unlocked
    | free done => exact free_unlocked done

/-- In every state of every run the lock is free, `free` comes back, and `malloc`
and `malloc_a` come back exactly when they need no report that allocates inside the
lock. -/
theorem calls_return_iff {run : HeapRun W} (reached : (heapSystem env).Reachable run) :
    run.heap.memlock = false ∧
    (∀ ptr, Returns (free ptr run.heap)) ∧
    (∀ n, Returns (malloc env n run.heap) ↔ ¬ MallocReports n run.heap) ∧
    (∀ n, Returns (mallocA env n run.heap) ↔ ¬ MallocAReports env n run.heap) := by
  have unlocked := unlocked_of_reachable reached
  refine ⟨unlocked, fun ptr => ?_, fun n => ?_, fun n => ?_⟩
  · rw [returns_of_ne_none fun r h' done => free_unlocked done]
    exact free_ne_none unlocked ptr
  · rw [returns_of_ne_none fun r h' done => (Changes.malloc done).unlocked unlocked, ne_eq,
      malloc_eq_none_iff env unlocked]
  · rw [returns_of_ne_none fun r h' done => (Changes.mallocA done).unlocked unlocked, ne_eq,
      mallocA_eq_none_iff unlocked]

/-- Sixteen bytes of a fresh heap. -/
theorem small_request_returns :
    ∃ run : HeapRun Unit, (heapSystem bareEnv).Reachable run ∧
      Returns (malloc bareEnv 16#32 run.heap) := by
  obtain ⟨h, _, reached, empty, last, top⟩ := reachable_fresh bareEnv ()
  refine ⟨_, reached, ((calls_return_iff reached).2.2.1 16#32).mpr ?_⟩
  have noFit : findBestFree 16#32 ([] : List U32) = some none := by decide
  rw [MallocReports, empty, last, top, noFit]
  rintro ⟨_, ⟨_, impossible, _⟩ | ⟨_, _, reaches, _⟩⟩
  · cases impossible
  · exact absurd reaches (by decide)

/-- A request for which twice the shortfall comes within a page of the end of the
address space: `sbrk` reports `HEAP FULL`, and the buffer of the report waits for
the lock that `malloc` holds. -/
theorem heap_full_waits_for_itself :
    ¬ ∀ run : HeapRun Unit, (heapSystem bareEnv).Reachable run →
      ∀ n, Returns (malloc bareEnv n run.heap) := by
  intro returns
  obtain ⟨h, _, reached, empty, last, top⟩ := reachable_fresh bareEnv ()
  refine ((calls_return_iff reached).2.2.1 0x1FE87800#32).mp (returns _ reached _) ?_
  have noFit : findBestFree 0x1FE87800#32 ([] : List U32) = some none := by decide
  rw [MallocReports, empty, last, top, noFit]
  exact ⟨by decide, Or.inr ⟨rfl, by decide, by decide, by decide, by decide⟩⟩

end Crunchy
