/-
Module: Crunchy.Proofs.ChainBounds
Purpose: Which words of the block chain the heap's functions read and write, over
  whole runs, against the 1024 words that `k_heap_init` allocates.
Trusted boundary: human-reviewed spec
Main exports: ChainOp, ChainOp.indices, HeapCall.ops, OpInside, CallInside,
  chain_accesses_inside_iff
-/
import Crunchy.Proofs.HeapLock

namespace Crunchy

open Lib List

variable {W : Type} {env : HeapEnv W}

/-! ### The words one function touches -/

/-- The words the loop of `find_best_free` reads: the values `block` takes. -/
def findBestFreeReads (n : U32) (chain : List U32) : Nat → Nat → Nat → U32 → List Nat
  | 0, _, _, _ => []
  | fuel + 1, i, block, smallestSz =>
    if i < chain.length then
      let w := chainWord chain block
      if n ≤ blockSize w ∧ blockSize w ≤ smallestSz ∧ blockUsed w = 0#32 then
        block :: findBestFreeReads n chain fuel 0 (block + 1) (blockSize w)
      else block :: findBestFreeReads n chain fuel (i + 1) (block + 1) smallestSz
    else []

/-- The four functions that work on the chain, with their arguments. -/
inductive ChainOp where
  | add
  | bestFree (n : U32)
  | block (ptr : U32)
  | translate (b : Nat)

/-- The indices of the chain words the function reads or writes in a state. -/
def ChainOp.indices (h : Heap W) : ChainOp → List Nat
  | .add => if maxBlocks < h.chain.length then [] else [h.chain.length]
  | .bestFree n => findBestFreeReads n h.chain (2 * h.chain.length + 1) 0 0 (n * 3#32)
  | .block ptr =>
    if h.kLastAlloc < ptr then []
    else List.range (findBlockLoop (ptr - kHeapBottom) h.chain 0#32 0)
  | .translate b => if h.chain.length < b then [] else List.range b

/-! ### The functions a call comes to, with the states it finds them in -/

/-- In `malloc(n)`. Where it reports, the `malloc` of the report waits for the lock
and comes to nothing. -/
def mallocOps (n : U32) (h : Heap W) : List (ChainOp × Heap W) :=
  if n = 0#32 ∨ h.memlock = true then []
  else
    (.bestFree n, h) ::
      match findBestFree n h.chain with
      | some (some i) =>
        [(.translate i, { h with chain := h.chain.set i (markUsed (chainWord h.chain i)) })]
      | some none => [(.add, h)]
      | none => []

/-- In `free(ptr)`. -/
def freeOps (ptr : U32) (h : Heap W) : List (ChainOp × Heap W) :=
  if h.memlock = true then [] else [(.block ptr, h)]

section Env

variable (env)

/-- In `printf`. -/
def printfOps (h : Heap W) : List (ChainOp × Heap W) :=
  mallocOps 256#32 h ++
    match malloc env 256#32 h with
    | some (buf, mid) => freeOps buf { mid with world := env.formatInto buf mid.world }
    | none => []

/-- In the `translate` of `malloc_a`. -/
def translateOps (b : Nat) (h : Heap W) : List (ChainOp × Heap W) :=
  (.translate b, h) ::
    if b ≤ h.chain.length ∧ h.kLastAlloc < kHeapBottom + sizeBefore h.chain b then
      printfOps env h
    else []

/-- In the `sbrk` of `malloc_a`. -/
def sbrkOps (m : U32) (h : Heap W) : List (ChainOp × Heap W) :=
  if m ≠ 0#32 ∧ kHeapMax ≤ m + h.kHeapTop then
    printfOps env { h with notes := .heapFull :: sumNotes m h.kHeapTop h.notes }
  else []

/-- In the padding of `malloc_a`. -/
def padOps (h : Heap W) : List (ChainOp × Heap W) :=
  if pageDiff h.kLastAlloc = 0x1000#32 then []
  else
    (.add, h) ::
      if maxBlocks < h.chain.length then []
      else
        translateOps env h.chain.length (withPad h) ++
          match translate (printf env) h.chain.length (withPad h) with
          | some (ptr, mid) => freeOps ptr mid
          | none => []

/-- In `malloc_a(n)`. -/
def mallocAOps (n : U32) (h : Heap W) : List (ChainOp × Heap W) :=
  padOps env h ++
    match padToPage env h with
    | some (true, mid) =>
      (.add, mid) ::
        if maxBlocks < mid.chain.length then []
        else if mid.kHeapTop ≤ (withBlock n mid).kLastAlloc then
          sbrkOps env (((withBlock n mid).kLastAlloc - mid.kHeapTop) + 0x1000#32)
            (withBlock n mid)
        else []
    | _ => []

/-- In `realloc(ptr, n)`. -/
def reallocOps (ptr n : U32) (h : Heap W) : List (ChainOp × Heap W) :=
  mallocOps n h ++
    match malloc env n h with
    | none => []
    | some (new, mid) =>
      (.block ptr, mid) ::
        match findBlock ptr mid with
        | .null => printfOps env mid
        | block =>
          let bv := mid.word block
          let sz := markFree bv
          let h := mid.setWord (markFree bv) block
          printfOps env
            { h with world := env.memcpy new ptr (if n ≤ sz then n else sz) h.world }

/-- In one call of a run. -/
def HeapCall.ops (h : Heap W) : HeapCall → List (ChainOp × Heap W)
  | .malloc n => mallocOps n h
  | .mallocA n => mallocAOps env n h
  | .realloc ptr n => reallocOps env ptr n h
  | .free ptr => freeOps ptr h

end Env

/-- Where the functions stay inside the chain: `blockchain_add` anywhere but at the
1025th entry, `find_best_free` unless it finds a block so late that the words it
goes on to read, as many as there are entries, end behind the chain. -/
def OpInside : ChainOp × Heap W → Prop
  | (.add, h) => h.chain.length ≠ maxBlocks
  | (.bestFree n, h) =>
    ∀ k, findBestFree n h.chain = some (some k) → k + h.chain.length < maxBlocks
  | (.block _, _) => True
  | (.translate _, _) => True

/-- Every function the call comes to stays inside. -/
def CallInside (env : HeapEnv W) (run : HeapRun W) (call : HeapCall) : Prop :=
  ∀ op ∈ call.ops env run.heap, OpInside op

/-! ### Reads of the searches -/

/-- Where `block` stands when the loop has counted `i` words since its last hit. -/
def readsFrom : Option Nat → Nat
  | none => 0
  | some k => k + 1

/-- The loop reads one word after the other, the last one as far behind the last hit
as the chain is long. -/
theorem mem_findBestFreeReads {n : U32} {chain : List U32} {fuel i block : Nat}
    {best r : Option Nat} {size : U32}
    (done : findBestFreeLoop n chain fuel i block best size = some r)
    (counts : block = readsFrom best + i) (counting : i ≤ chain.length) :
    block ≤ readsFrom r + chain.length ∧
      ∀ j, j ∈ findBestFreeReads n chain fuel i block size ↔
        block ≤ j ∧ j < readsFrom r + chain.length := by
  induction fuel generalizing i block best size with
  | zero => cases done
  | succ fuel ih =>
    rw [findBestFreeLoop] at done
    rw [findBestFreeReads]
    split at done
    · rename_i more
      rw [if_pos more]
      dsimp only at done ⊢
      split at done
      · rename_i hit
        rw [if_pos hit]
        obtain ⟨upper, reads⟩ := ih done rfl (Nat.zero_le _)
        refine ⟨by omega, fun j => ?_⟩
        rw [mem_cons, reads]
        omega
      · rename_i missed
        rw [if_neg missed]
        obtain ⟨upper, reads⟩ := ih done (by omega) (by omega)
        refine ⟨by omega, fun j => ?_⟩
        rw [mem_cons, reads]
        omega
    · rename_i ended
      cases done
      rw [if_neg ended]
      refine ⟨by omega, fun j => ?_⟩
      simp only [not_mem_nil, false_iff]
      omega

theorem findBlockLoop_le (toTraverse : U32) (words : List U32) (total : U32) (block : Nat) :
    findBlockLoop toTraverse words total block ≤ block + words.length := by
  induction words generalizing total block with
  | nil => exact Nat.le_refl _
  | cons w rest ih =>
    rw [findBlockLoop, length_cons]
    split
    · omega
    · have later := ih (total + blockSize w) (block + 1)
      omega

/-- What the traces keep to: the chain holds at most its 1024 words, and searches
are for bytes. -/
structure OpReady (op : ChainOp × Heap W) : Prop where
  few : op.2.chain.length ≤ maxBlocks
  bytes : ∀ n, op.1 = .bestFree n → n ≠ 0#32

theorem add_index {h : Heap W} (few : h.chain.length ≤ maxBlocks) :
    h.chain.length ∈ ChainOp.add.indices h := by
  rw [ChainOp.indices, if_neg (Nat.not_lt.mpr few)]
  exact mem_singleton_self _

/-- A function stays inside the chain exactly where `OpInside` says. -/
theorem indices_inside_iff {op : ChainOp × Heap W} (ready : OpReady op) :
    (∀ i ∈ op.1.indices op.2, i < maxBlocks) ↔ OpInside op := by
  obtain ⟨op, h⟩ := op
  have few : h.chain.length ≤ maxBlocks := ready.few
  cases op with
  | add =>
    simp only [ChainOp.indices, if_neg (Nat.not_lt.mpr few), mem_singleton, forall_eq, OpInside]
    omega
  | bestFree n =>
    obtain ⟨r, search, _⟩ := findBestFree_spec (ready.bytes n rfl) h.chain
    obtain ⟨_, reads⟩ := mem_findBestFreeReads search rfl (Nat.zero_le _)
    simp only [ChainOp.indices, reads, OpInside, search]
    cases r with
    | none => simp [readsFrom]; omega
    | some k =>
      simp only [readsFrom, Option.some.injEq, forall_eq']
      constructor
      · intro inside
        exact inside (k + h.chain.length) ⟨Nat.zero_le _, by omega⟩
      · rintro inside i ⟨_, below⟩
        omega
  | block ptr =>
    have upper := findBlockLoop_le (ptr - kHeapBottom) h.chain 0#32 0
    simp only [ChainOp.indices, OpInside, iff_true]
    split
    · simp
    · intro i read
      rw [mem_range] at read
      omega
  | translate b =>
    simp only [ChainOp.indices, OpInside, iff_true]
    split
    · simp
    · intro i read
      rw [mem_range] at read
      omega

/-! ### What a call leaves of the chain's room -/

/-- No append of the trace is the 1025th. -/
def AddsInside (ops : List (ChainOp × Heap W)) : Prop :=
  ∀ op ∈ ops, op.1 = .add → op.2.chain.length ≠ maxBlocks

section Room

variable {n : U32} {h : Heap W}

@[simp] theorem addsInside_cons {op : ChainOp × Heap W} {ops : List (ChainOp × Heap W)} :
    AddsInside (op :: ops) ↔
      (op.1 = .add → op.2.chain.length ≠ maxBlocks) ∧ AddsInside ops := by
  simp [AddsInside]

@[simp] theorem addsInside_append {ops more : List (ChainOp × Heap W)} :
    AddsInside (ops ++ more) ↔ AddsInside ops ∧ AddsInside more := by
  simp [AddsInside, or_imp, forall_and]

theorem ready_of_ne_bestFree {op : ChainOp} (few : h.chain.length ≤ maxBlocks)
    (other : ∀ n, op ≠ .bestFree n) : OpReady (op, h) :=
  ⟨few, fun n isSearch => absurd isSearch (other n)⟩

/-- A part of a call stays inside the chain: unless it makes the 1025th entry, its functions
find at most 1024 words and so does what comes after it. -/
def Stays {Result : Type} (heap : Result → Heap W) (ops : List (ChainOp × Heap W))
    (out : Option Result) : Prop :=
  AddsInside ops → (∀ op ∈ ops, OpReady op) ∧
    ∀ r, out = some r → (heap r).chain.length ≤ maxBlocks

namespace Stays

variable {One Two : Type} {heap : One → Heap W} {heap' : Two → Heap W}
  {ops rest : List (ChainOp × Heap W)} {out : Option One}

theorem done {r : One} (few : (heap r).chain.length ≤ maxBlocks) : Stays heap [] (some r) := by
  refine fun _ => ⟨nofun, ?_⟩
  rintro _ ⟨⟩
  exact few

theorem cons {op : ChainOp × Heap W} (ready : OpReady op)
    (goes : (op.1 = .add → op.2.chain.length ≠ maxBlocks) → Stays heap ops out) :
    Stays heap (op :: ops) out := by
  intro adds
  obtain ⟨notLast, adds⟩ := addsInside_cons.mp adds
  obtain ⟨more, after⟩ := goes notLast adds
  exact ⟨forall_mem_cons.mpr ⟨ready, more⟩, after⟩

/-- One part after the other. A part that does not come back has nothing after it. -/
theorem bind {next : One → Option Two} (first : Stays heap ops out)
    (stuck : out = none → rest = [])
    (goes : ∀ r, out = some r → (heap r).chain.length ≤ maxBlocks → Stays heap' rest (next r)) :
    Stays heap' (ops ++ rest) (out.bind next) := by
  intro adds
  rw [addsInside_append] at adds
  obtain ⟨ready, after⟩ := first adds.1
  cases out with
  | none =>
    rw [stuck rfl, append_nil]
    exact ⟨ready, nofun⟩
  | some r =>
    obtain ⟨more, later⟩ := goes r rfl (after r rfl) adds.2
    exact ⟨forall_mem_append.mpr ⟨ready, more⟩, later⟩

/-- Handing the heap on. -/
theorem ret {f : One → Two} (first : Stays heap ops out) (same : ∀ r, heap' (f r) = heap r) :
    Stays heap' ops (out.bind fun r => some (f r)) := by
  have handed : Stays heap' (ops ++ []) (out.bind fun r => some (f r)) :=
    first.bind (fun _ => rfl) fun r _ few => done (by rwa [same r])
  rwa [append_nil] at handed

theorem malloc (few : h.chain.length ≤ maxBlocks) :
    Stays Prod.snd (mallocOps n h) (malloc env n h) := by
  refine fun adds => ⟨fun op member => ?_, fun ⟨p, h'⟩ done => ?_⟩
  · rw [mallocOps] at member
    split at member
    · cases member
    · rename_i runs
      rcases mem_cons.mp member with rfl | member
      · refine ⟨few, fun m isSearch => ?_⟩
        cases isSearch
        exact fun isZero => runs (Or.inl isZero)
      · split at member
        · rw [mem_singleton.mp member]
          exact ready_of_ne_bestFree (by simpa using few) (by simp)
        · rw [mem_singleton.mp member]
          exact ready_of_ne_bestFree few (by simp)
        · cases member
  · cases malloc_outcome done with
    | zero => exact few
    | reuse => simpa using few
    | refused => exact few
    | new positive best =>
      obtain ⟨found, search, isBest⟩ := findBestFree_spec positive h.chain
      have none : found = none := by
        cases found with
        | none => rfl
        | some i => exact absurd isBest.2.1 (best i isBest.1)
      have notLast : h.chain.length ≠ maxBlocks := by
        simp only [mallocOps, positive, malloc_unlocked positive done, Bool.false_eq_true,
          or_self, if_false, search, none, addsInside_cons] at adds
        exact adds.2.1 trivial
      simp only [length_append, length_singleton]
      omega

theorem free (ptr : U32) (few : h.chain.length ≤ maxBlocks) :
    Stays Prod.snd (freeOps ptr h) (free ptr h) := by
  refine fun _ => ⟨fun op member => ?_, fun ⟨r, h'⟩ done => ?_⟩
  · rw [freeOps] at member
    split at member
    · cases member
    · rw [mem_singleton.mp member]
      exact ready_of_ne_bestFree few (by simp)
  · simpa [(free_outcome done).2] using few

theorem printf (few : h.chain.length ≤ maxBlocks) :
    Stays id (printfOps env h) (printf env h) := by
  refine (malloc few).bind (fun none => by rw [none]) fun ⟨buf, mid⟩ allocated midFew => ?_
  rw [allocated]
  exact (free buf (by exact midFew)).ret (f := Prod.snd) fun _ => rfl

theorem translate {b : Nat} (few : h.chain.length ≤ maxBlocks) :
    Stays Prod.snd (translateOps env b h) (translate (Crunchy.printf env) b h) := by
  refine cons (ready_of_ne_bestFree few (by simp)) fun _ => ?_
  rw [Crunchy.translate]
  by_cases known : b ≤ h.chain.length
  · rw [if_neg (Nat.not_lt.mpr known)]
    by_cases above : h.kLastAlloc < kHeapBottom + sizeBefore h.chain b
    · rw [if_pos ⟨known, above⟩]
      simp only [if_pos above]
      exact (printf few).ret fun _ => rfl
    · rw [if_neg fun reports => above reports.2]
      simp only [if_neg above]
      exact done few
  · rw [if_neg fun reports => known reports.1, if_pos (Nat.lt_of_not_le known)]
    exact done few

theorem sbrk {m : U32} (few : h.chain.length ≤ maxBlocks) :
    Stays Prod.snd (sbrkOps env m h) (sbrk env (Crunchy.printf env) m h) := by
  rw [sbrkOps]
  cases room : brk m h.kHeapTop with
  | some top =>
    obtain ⟨r, notes, equation, _⟩ := sbrk_eq_some env (Crunchy.printf env) room
    have quiet : ¬ (m ≠ 0#32 ∧ kHeapMax ≤ m + h.kHeapTop) := by
      rw [← SbrkReports, ← brk_eq_none_iff, room]
      simp
    rw [if_neg quiet, equation]
    exact done few
  | none =>
    have reports : m ≠ 0#32 ∧ kHeapMax ≤ m + h.kHeapTop := brk_eq_none_iff.mp room
    rw [if_pos reports, sbrk_eq_full env room]
    exact ret (printf (by exact few)) fun _ => rfl

theorem padToPage (few : h.chain.length ≤ maxBlocks) :
    Stays Prod.snd (padOps env h) (padToPage env h) := by
  have room : ¬ maxBlocks < h.chain.length := Nat.not_lt.mpr few
  rw [padOps, padToPage_eq]
  by_cases onPage : pageDiff h.kLastAlloc = 0x1000#32
  · rw [if_pos onPage, if_pos onPage]
    exact done few
  · rw [if_neg onPage, if_neg onPage, if_neg room, if_neg room]
    refine cons (ready_of_ne_bestFree few (by simp)) fun notLast => ?_
    have padFew : (withPad h).chain.length ≤ maxBlocks := by
      have below : h.chain.length ≠ maxBlocks := notLast rfl
      simp only [withPad, length_append, length_singleton]
      omega
    refine (translate padFew).bind (fun none => by rw [none]) fun got found midFew => ?_
    rw [found]
    exact (free got.1 midFew).ret fun _ => rfl

theorem mallocA (few : h.chain.length ≤ maxBlocks) :
    Stays Prod.snd (mallocAOps env n h) (mallocA env n h) := by
  rw [mallocAOps, mallocA_eq]
  refine (padToPage few).bind (fun none => by rw [none]) fun ⟨r, mid⟩ padded midFew => ?_
  rw [padded]
  cases r with
  | false => exact done midFew
  | true =>
    simp only [Bool.true_eq_false, if_false, if_neg (Nat.not_lt.mpr midFew)]
    refine cons (ready_of_ne_bestFree midFew (by simp)) fun notLast => ?_
    have blockFew : (withBlock n mid).chain.length ≤ maxBlocks := by
      have below : mid.chain.length ≠ maxBlocks := notLast rfl
      dsimp only at midFew
      simp only [withBlock, length_append, length_singleton]
      omega
    by_cases reaches : mid.kHeapTop ≤ (withBlock n mid).kLastAlloc
    · rw [if_pos reaches, if_pos reaches]
      exact (sbrk blockFew).ret fun _ => rfl
    · rw [if_neg reaches, if_neg reaches]
      exact done blockFew

theorem realloc {ptr : U32} (few : h.chain.length ≤ maxBlocks) :
    Stays Prod.snd (reallocOps env ptr n h) (realloc env ptr n h) := by
  refine (malloc few).bind (fun none => by rw [none]) fun ⟨new, mid⟩ allocated midFew => ?_
  rw [allocated]
  refine cons (ready_of_ne_bestFree midFew (by simp)) fun _ => ?_
  cases found : findBlock ptr mid with
  | null =>
    simp only [found]
    exact (printf midFew).ret fun _ => rfl
  | beforeChain =>
    simp only [found]
    exact ret (printf midFew) fun _ => rfl
  | entry i =>
    simp only [found]
    exact ret (printf (by simpa [Heap.setWord] using midFew)) fun _ => rfl

end Stays

/-- The functions of a call, and what it leaves. -/
theorem ops_ready (few : h.chain.length ≤ maxBlocks) {call : HeapCall}
    (adds : AddsInside (call.ops env h)) : ∀ op ∈ call.ops env h, OpReady op := by
  cases call <;> rw [HeapCall.ops] at adds ⊢
  case malloc n => exact (@Stays.malloc W env n h few adds).1
  case mallocA n => exact (Stays.mallocA few adds).1
  case realloc ptr n => exact (Stays.realloc few adds).1
  case free ptr => exact (Stays.free ptr few adds).1

end Room

/-! ### Runs -/

theorem CallInside.adds {run : HeapRun W} {call : HeapCall} (inside : CallInside env run call) :
    AddsInside (call.ops env run.heap) := by
  rintro ⟨op, h⟩ member isAdd
  cases isAdd
  exact inside _ member

theorem few_of_reachable {run : HeapRun W}
    (reached : ((heapSystem env).restrict (CallInside env)).Reachable run) :
    run.heap.chain.length ≤ maxBlocks := by
  refine reached.invariant (fun run => run.heap.chain.length ≤ maxBlocks) ?_ ?_
  · rintro run ⟨⟨world, init⟩, _⟩
    rw [eq_freshHeap init]
    exact Nat.zero_le _
  · rintro before call after few ⟨inside, taken⟩
    have adds := inside.adds
    cases taken <;> rw [HeapCall.ops] at adds
    case malloc done => exact (Stays.malloc few adds).2 _ done
    case mallocA done => exact (Stays.mallocA few adds).2 _ done
    case realloc done => exact (Stays.realloc few adds).2 _ done
    case free done => exact (Stays.free _ few adds).2 _ done

/-- As long as a run has kept to `CallInside`, its next call keeps every access to
the chain below `MAX_BLOCKS` exactly when it keeps to it too. -/
theorem chain_accesses_inside_iff {run : HeapRun W}
    (reached : ((heapSystem env).restrict (CallInside env)).Reachable run) (call : HeapCall) :
    (∀ op ∈ call.ops env run.heap, ∀ i ∈ op.1.indices op.2, i < maxBlocks) ↔
      CallInside env run call := by
  have few := few_of_reachable reached
  constructor
  · intro inside
    have adds : AddsInside (call.ops env run.heap) := by
      rintro ⟨op, h⟩ member isAdd last
      cases isAdd
      have lastIndex := add_index (Nat.le_of_eq last)
      have below := inside _ member _ lastIndex
      omega
    intro op member
    exact (indices_inside_iff (ops_ready few adds op member)).mp (inside op member)
  · intro inside op member
    exact (indices_inside_iff (ops_ready few inside.adds op member)).mpr
      (inside op member)

/-- What `malloc` comes to when no block fits: the search and the append. -/
theorem mallocOps_noFit {n : U32} {h : Heap W} (unlocked : h.memlock = false) (positive : n ≠ 0#32)
    (noFit : findBestFree n h.chain = some none) :
    mallocOps n h = [(.bestFree n, h), (.add, h)] := by
  simp [mallocOps, unlocked, positive, noFit]

/-- The first block of a run goes inside the chain. -/
theorem first_block_inside :
    ∃ run : HeapRun Unit, ((heapSystem bareEnv).restrict (CallInside bareEnv)).Reachable run ∧
      ∀ op ∈ (HeapCall.malloc 1#32).ops bareEnv run.heap,
        ∀ i ∈ op.1.indices op.2, i < maxBlocks := by
  have init : kHeapInit bareEnv () = some (filledHeap 0) := by decide +kernel
  have reached : ((heapSystem bareEnv).restrict (CallInside bareEnv)).Reachable
      { heap := filledHeap 0, live := [] } := .start ⟨⟨(), init⟩, rfl⟩
  refine ⟨_, reached, (chain_accesses_inside_iff reached _).mpr ?_⟩
  have noFit := findBestFree_filled (n := 1#32) (by decide) 0
  intro op member
  rcases mem_pair.mp member with rfl | rfl
  · intro k found
    cases found
  · exact (by decide : 0 ≠ maxBlocks)

/-- The 1025th block is written behind the chain. -/
theorem block_behind_chain :
    ¬ ∀ run : HeapRun Unit, (heapSystem bareEnv).Reachable run → ∀ call : HeapCall,
      ∀ op ∈ call.ops bareEnv run.heap, ∀ i ∈ op.1.indices op.2, i < maxBlocks := by
  intro inside
  obtain ⟨live, _, reached, _⟩ := reachable_filled (k := 1024) (by decide)
  have appends : (ChainOp.add, filledHeap 1024) ∈
      (HeapCall.malloc 1#32).ops bareEnv (filledHeap 1024) := by
    rw [HeapCall.ops,
      mallocOps_noFit rfl (by decide) (findBestFree_filled (n := 1#32) (by decide) 1024)]
    exact mem_pair.mpr (.inr rfl)
  have lastIndex := add_index (h := filledHeap 1024) (by rw [length_filledHeap]; decide)
  have below := inside _ reached _ _ appends _ lastIndex
  rw [length_filledHeap] at below
  exact absurd below (by decide)

end Crunchy
