/-
Module: Crunchy.Proofs.HeapCalls
Purpose: The calls of `malloc.c` put as equations on the heap's fields: `malloc`
  and its recursion through `printf`, where `sbrk` takes the top, `free`, and what
  every call keeps.
Trusted boundary: none
Main exports: brk, topAfter, Malloced, malloc_outcome, freedChain, free_eq,
  Change, Changes
-/
import Crunchy.Proofs.Chain

namespace Crunchy

open Lib BitVec Option List

variable {W : Type} {env : HeapEnv W}

variable {h h' : Heap W} {m n p ptr r top : U32}

/-! ### `malloc` holds the lock through every `printf` it can reach -/

/-- `malloc` with a `printf` that hangs. -/
theorem malloc_eq_hanging (n : U32) (h : Heap W) :
    malloc env n h = mallocWith env (fun _ => none) n h := rfl

/-- Every `printf` that `malloc` can reach is called with the lock held. -/
theorem mallocWith_congr {f g : Heap W → Option (Heap W)}
    (same : ∀ h : Heap W, h.memlock = true → f h = g h) :
    mallocWith env f n h = mallocWith env g n h := by
  rw [mallocWith, mallocWith, acquire]
  split
  · rfl
  split
  · rfl
  simp only [bind_eq_bind, bind_some]
  refine Option.bind_congr fun found _ => ?_
  cases found with
  | some block => simp (disch := rfl) only [mallocReuse, translate, same]
  | none =>
    by_cases full : maxBlocks < h.chain.length
    · simp [mallocNew, blockchainAdd, full]
    · simp (disch := rfl) only [mallocNew, blockchainAdd, if_neg full, sbrk, Heap.noteSum, same]

/-- However deep `malloc` may call itself, the inner call waits for the lock. -/
theorem malloc_eq (depth : Nat) : mallocDepth env (depth + 1) n h = malloc env n h := by
  cases depth with
  | zero => rfl
  | succ depth =>
    apply mallocWith_congr
    intro h locked
    have inner : mallocDepth env (depth + 1) 256#32 h = none := by
      simp [mallocDepth, mallocWith, acquire, locked]
    rw [printfWith, inner]
    rfl

/-! ### Where `sbrk` takes the top -/

/-- The top after `sbrk(m)`; `none` when it reports `HEAP FULL`. -/
def brk (m top : U32) : Option U32 :=
  if m = 0#32 then some top
  else if kHeapMax ≤ m + top then none
  else some (top + 0x1000#32 * numOfBlocks m)

/-- An operation took the notes from `before` to `after`: it noted nothing when the
sums `fits` speaks of fit in 32 bits, and else a wrap. -/
structure Noted (before after : List HeapNote) (fits : Prop) : Prop where
  kept : before ⊆ after
  same : fits → after = before
  wraps : ¬ fits → HeapNote.wrapped ∈ after

theorem Noted.quiet {before after : List HeapNote} {fits : Prop}
    (noted : Noted before after fits) (noWrap : HeapNote.wrapped ∉ after) :
    after = before ∧ fits := by
  by_cases holds : fits
  · exact ⟨noted.same holds, holds⟩
  · exact absurd (noted.wraps holds) noWrap

theorem noted_sumNotes (a b : U32) (notes : List HeapNote) :
    Noted notes (sumNotes a b notes) (a.toNat + b.toNat < 2 ^ 32) := by
  rw [sumNotes]
  split
  · rename_i overflow
    exact ⟨subset_cons_self _ _, fun fits => absurd fits (Nat.not_lt.mpr overflow),
      fun _ => mem_cons_self ..⟩
  · rename_i fits
    exact ⟨List.Subset.refl _, fun _ => rfl,
      fun overflow => absurd (Nat.lt_of_not_le fits) overflow⟩

theorem toNat_numOfBlocks (m : U32) : (numOfBlocks m).toNat = max 1 (m.toNat / 4096) := by
  rw [numOfBlocks]
  split
  · rename_i large
    rw [lt_def] at large
    norm_num at large ⊢
    omega
  · rename_i small
    rw [lt_def] at small
    simp only [toNat_ofNat] at small ⊢
    omega

theorem toNat_grown (m top : U32) :
    (top + 0x1000#32 * numOfBlocks m).toNat =
      (top.toNat + 4096 * max 1 (m.toNat / 4096)) % 2 ^ 32 := by
  rw [toNat_add, toNat_mul, toNat_numOfBlocks, toNat_ofNat]
  omega

/-- The pages the loop of `sbrk` backs, `k` of them from `top` on. -/
def HeapEnv.backPages (env : HeapEnv W) : Nat → U32 → W → W
  | 0, _, world => world
  | k + 1, top, world => env.backPages k (top + 0x1000#32) (env.mapHeapPage top world)

/-- The machine once the pages between two tops are backed. -/
def HeapEnv.backTo (env : HeapEnv W) (top new : U32) (world : W) : W :=
  env.backPages ((new - top).toNat / 0x1000) top world

theorem sbrkLoop_eq (env : HeapEnv W) (k : Nat) (h : Heap W) :
    sbrkLoop env k h =
      { h with
        kHeapTop := h.kHeapTop + 0x1000#32 * BitVec.ofNat 32 k
        world := env.backPages k h.kHeapTop h.world } := by
  induction k generalizing h with
  | zero => simp [sbrkLoop, HeapEnv.backPages]
  | succ k ih =>
    have pages : h.kHeapTop + 0x1000#32 + 0x1000#32 * BitVec.ofNat 32 k =
        h.kHeapTop + 0x1000#32 * BitVec.ofNat 32 (k + 1) := by
      rw [ofNat_add, mul_add, add_assoc, add_comm (0x1000#32 * BitVec.ofNat 32 k)]
      rfl
    rw [sbrkLoop, ih, HeapEnv.backPages, pages]

@[simp] theorem backTo_self (top : U32) (world : W) : env.backTo top top world = world := by
  rw [HeapEnv.backTo, sub_self]
  rfl

/-- The pages for `m` bytes are those up to the new top. -/
theorem backTo_grown (m top : U32) (world : W) :
    env.backTo top (top + 0x1000#32 * numOfBlocks m) world =
      env.backPages (numOfBlocks m).toNat top world := by
  have pages : (0x1000#32 * numOfBlocks m).toNat / 0x1000 = (numOfBlocks m).toNat := by
    rw [toNat_mul, toNat_numOfBlocks, toNat_ofNat]
    omega
  rw [HeapEnv.backTo, add_comm, add_sub_cancel, pages]

/-- `sbrk` with room below the limit. -/
theorem sbrk_eq_some (env : HeapEnv W) (printf : Heap W → Option (Heap W))
    (room : brk m h.kHeapTop = some top) :
    ∃ r notes, sbrk env printf m h =
        some (r, { h with kHeapTop := top, notes, world := env.backTo h.kHeapTop top h.world }) ∧
      Noted h.notes notes (m = 0#32 ∨ m.toNat + h.kHeapTop.toNat < 2 ^ 32) := by
  rw [brk] at room
  rw [sbrk]
  split at room
  · rename_i zero
    cases room
    refine ⟨null, h.notes, ?_, List.Subset.refl _, fun _ => rfl, ?_⟩
    · rw [if_pos zero, backTo_self]
    · exact fun overflow => absurd (Or.inl zero) overflow
  · rename_i positive
    split at room
    · cases room
    · rename_i below
      cases room
      have noted := noted_sumNotes m h.kHeapTop h.notes
      refine ⟨h.kHeapTop + 0x1000#32 * numOfBlocks m, _, ?_, noted.kept,
        fun fits => noted.same (fits.resolve_left positive),
        fun overflow => noted.wraps fun fits => overflow (Or.inr fits)⟩
      rw [if_neg positive, backTo_grown]
      simp only [sbrkLoop_eq, ofNat_toNat, setWidth_eq]
      exact if_neg below

/-- `sbrk` at the limit goes to `printf`. -/
theorem sbrk_eq_full (env : HeapEnv W) {printf : Heap W → Option (Heap W)}
    (full : brk m h.kHeapTop = none) :
    sbrk env printf m h =
      (printf { h with notes := .heapFull :: sumNotes m h.kHeapTop h.notes }).bind
        fun h => some (null, h) := by
  rw [brk] at full
  rw [sbrk]
  split at full
  · cases full
  · rename_i positive
    split at full
    · rename_i above
      rw [if_neg positive]
      exact if_pos above
    · cases full

theorem sbrk_outcome {printf : Heap W → Option (Heap W)}
    (done : sbrk env printf m h = some (r, h')) :
    (∃ top notes, brk m h.kHeapTop = some top ∧
      Noted h.notes notes (m = 0#32 ∨ m.toNat + h.kHeapTop.toNat < 2 ^ 32) ∧
      h' = { h with kHeapTop := top, notes, world := env.backTo h.kHeapTop top h.world }) ∨
    printf { h with notes := .heapFull :: sumNotes m h.kHeapTop h.notes } = some h' := by
  cases room : brk m h.kHeapTop with
  | some top =>
    obtain ⟨_, notes, equation, noted⟩ := sbrk_eq_some env printf room
    rw [equation] at done
    cases done
    exact Or.inl ⟨top, notes, rfl, noted, rfl⟩
  | none =>
    rw [sbrk_eq_full env room] at done
    obtain ⟨after, printed, done⟩ := bind_eq_some_iff.mp done
    cases done
    exact Or.inr printed

/-! ### `malloc` case by case -/

section Malloc

variable {n : U32} {h : Heap W}

@[simp] theorem malloc_zero (env : HeapEnv W) (h : Heap W) :
    malloc env 0#32 h = some (null, h) := by
  rw [malloc_eq_hanging, mallocWith, if_pos rfl]

theorem malloc_search (positive : n ≠ 0#32) (unlocked : h.memlock = false)
    {found : Option Nat} (search : findBestFree n h.chain = some found) :
    malloc env n h =
      match found with
      | some block => mallocReuse (fun _ => none) block { h with memlock := true }
      | none => mallocNew env (fun _ => none) n { h with memlock := true } := by
  rw [malloc_eq_hanging, mallocWith, if_neg positive, acquire, unlocked]
  simp only [Bool.false_eq_true, if_false, bind_eq_bind, bind_some, search]
  cases found <;> rfl

/-- A free block is taken: the address is what the sizes before it add up to. -/
theorem malloc_reuse (env : HeapEnv W) (positive : n ≠ 0#32) (unlocked : h.memlock = false)
    {i : Nat}
    (found : findBestFree n h.chain = some (some i)) (inside : i < h.chain.length) :
    malloc env n h =
      if h.kLastAlloc < kHeapBottom + sizeBefore h.chain i then none
      else some (kHeapBottom + sizeBefore h.chain i,
        { h with
          chain := h.chain.set i (markUsed (chainWord h.chain i))
          memlock := false }) := by
  have before : sizeBefore (h.chain.set i (markUsed (chainWord h.chain i))) i =
      sizeBefore h.chain i := by
    rw [sizeBefore, take_set_of_le (Nat.le_refl _), sizeBefore]
  have known : ¬ (h.chain.set i (markUsed (chainWord h.chain i))).length < i := by
    rw [length_set]
    omega
  rw [malloc_search positive unlocked found]
  simp only [mallocReuse, translate, if_neg known, before]
  split <;> rfl

/-- The chain is full. -/
theorem malloc_refused (env : HeapEnv W) (positive : n ≠ 0#32) (unlocked : h.memlock = false)
    (noFit : findBestFree n h.chain = some none) (full : maxBlocks < h.chain.length) :
    malloc env n h =
      some (null, { h with notes := .refused :: h.notes, memlock := false }) := by
  rw [malloc_search positive unlocked noFit]
  simp only [mallocNew, blockchainAdd, if_pos full]
  rfl

/-- The top after `malloc(n)` has made a new block; `none` when `sbrk` reports
`HEAP FULL`. -/
def topAfter (n : U32) (h : Heap W) : Option U32 :=
  if h.kHeapTop ≤ h.kLastAlloc + n then
    brk (2#32 * ((n + h.kLastAlloc) - h.kHeapTop)) h.kHeapTop
  else some h.kHeapTop

/-- The sums `malloc(n)` forms for a new block fit in 32 bits. -/
def SumsFit (n : U32) (h : Heap W) : Prop :=
  h.kLastAlloc.toNat + n.toNat < 2 ^ 32 ∧
  (h.kHeapTop ≤ h.kLastAlloc + n →
    2#32 * ((n + h.kLastAlloc) - h.kHeapTop) = 0#32 ∨
    (2#32 * ((n + h.kLastAlloc) - h.kHeapTop)).toNat + h.kHeapTop.toNat < 2 ^ 32)

/-- A new block at the end of the chain. -/
theorem malloc_new (env : HeapEnv W) (positive : n ≠ 0#32) (unlocked : h.memlock = false)
    (noFit : findBestFree n h.chain = some none) (room : h.chain.length ≤ maxBlocks)
    (growth : topAfter n h = some top) :
    ∃ notes,
      malloc env n h =
        some (h.kLastAlloc,
          { chain := h.chain ++ [markUsed (blockSize n)]
            kHeapTop := top
            kLastAlloc := h.kLastAlloc + n
            memlock := false
            notes
            world := env.backTo h.kHeapTop top h.world }) ∧
      Noted h.notes notes (SumsFit n h) := by
  have noted := noted_sumNotes h.kLastAlloc n h.notes
  rw [malloc_search positive unlocked noFit]
  simp only [mallocNew, blockchainAdd, if_neg (Nat.not_lt.mpr room)]
  rw [topAfter] at growth
  split at growth
  · rename_i reaches
    obtain ⟨r, notes, grown, grownNoted⟩ :=
      sbrk_eq_some env (fun _ => none)
        (h := { h with
          chain := h.chain ++ [markUsed (blockSize n)]
          memlock := true
          notes := sumNotes h.kLastAlloc n h.notes }) growth
    refine ⟨notes, ?_, fun _ member => grownNoted.kept (noted.kept member), ?_, ?_⟩
    · simp only [Heap.noteSum, Bool.not_true, Bool.false_eq_true, if_false, if_pos reaches, grown]
      rfl
    · rintro ⟨sum, inner⟩
      exact (grownNoted.same (inner reaches)).trans (noted.same sum)
    · intro overflow
      by_cases sum : h.kLastAlloc.toNat + n.toNat < 2 ^ 32
      · exact grownNoted.wraps fun inner => overflow ⟨sum, fun _ => inner⟩
      · exact grownNoted.kept (noted.wraps sum)
  · rename_i below
    cases growth
    refine ⟨_, ?_, noted.kept, fun fits => noted.same fits.1, fun overflow => ?_⟩
    · rw [backTo_self]
      exact (if_neg below).trans rfl
    · exact noted.wraps fun sum => overflow ⟨sum, fun reaches => absurd reaches below⟩

/-- `malloc` never comes back from the report `HEAP FULL`. -/
theorem malloc_hangs (env : HeapEnv W) (positive : n ≠ 0#32) (unlocked : h.memlock = false)
    (noFit : findBestFree n h.chain = some none) (room : h.chain.length ≤ maxBlocks)
    (growth : topAfter n h = none) : malloc env n h = none := by
  rw [topAfter] at growth
  split at growth
  · rename_i reaches
    rw [malloc_search positive unlocked noFit]
    simp only [mallocNew, blockchainAdd, if_neg (Nat.not_lt.mpr room), Heap.noteSum,
      Bool.not_true, Bool.false_eq_true, if_false, if_pos reaches]
    rw [sbrk_eq_full]
    · rfl
    · exact growth
  · cases growth

/-- The ways `malloc(n)` can return. -/
inductive Malloced (env : HeapEnv W) (n : U32) (h : Heap W) : U32 → Heap W → Prop where
  | zero (isZero : n = 0#32) : Malloced env n h null h
  | reuse {i : Nat} (positive : n ≠ 0#32)
      (best : BestFit n (n * 3#32) h.chain h.chain.length (some i))
      (low : ¬ h.kLastAlloc < kHeapBottom + sizeBefore h.chain i) :
      Malloced env n h (kHeapBottom + sizeBefore h.chain i)
        { h with
          chain := h.chain.set i (markUsed (chainWord h.chain i))
          memlock := false }
  | refused (positive : n ≠ 0#32) (best : BestFit n (n * 3#32) h.chain h.chain.length none)
      (full : maxBlocks < h.chain.length) :
      Malloced env n h null { h with notes := .refused :: h.notes, memlock := false }
  | new {top : U32} {notes : List HeapNote} (positive : n ≠ 0#32)
      (best : BestFit n (n * 3#32) h.chain h.chain.length none)
      (room : h.chain.length ≤ maxBlocks) (growth : topAfter n h = some top)
      (noted : Noted h.notes notes (SumsFit n h)) :
      Malloced env n h h.kLastAlloc
        { chain := h.chain ++ [markUsed (blockSize n)]
          kHeapTop := top
          kLastAlloc := h.kLastAlloc + n
          memlock := false
          notes
          world := env.backTo h.kHeapTop top h.world }

/-- A request that is held returns nothing. -/
theorem malloc_unlocked (positive : n ≠ 0#32) (done : malloc env n h = some (p, h')) :
    h.memlock = false := by
  rw [malloc_eq_hanging, mallocWith, if_neg positive] at done
  obtain ⟨locked, acquired, _⟩ := bind_eq_some_iff.mp done
  rw [acquire] at acquired
  split at acquired
  · cases acquired
  · rename_i free
    exact Bool.eq_false_of_not_eq_true free

theorem malloc_outcome (done : malloc env n h = some (p, h')) : Malloced env n h p h' := by
  by_cases isZero : n = 0#32
  · subst isZero
    cases done
    exact .zero rfl
  · have unlocked := malloc_unlocked isZero done
    obtain ⟨found, search, best⟩ := findBestFree_spec isZero h.chain
    cases found with
    | some i =>
      rw [malloc_reuse env isZero unlocked search best.1] at done
      split at done
      · cases done
      · rename_i low
        cases done
        exact .reuse isZero best low
    | none =>
      by_cases full : maxBlocks < h.chain.length
      · rw [malloc_refused env isZero unlocked search full] at done
        cases done
        exact .refused isZero best full
      · have room := Nat.le_of_not_lt full
        cases growth : topAfter n h with
        | none =>
          rw [malloc_hangs env isZero unlocked search room growth] at done
          cases done
        | some top =>
          obtain ⟨notes, equation, noted⟩ :=
            malloc_new env isZero unlocked search room growth
          rw [equation] at done
          cases done
          exact .new isZero best room growth noted

end Malloc

/-! ### The other operations -/

/-- The chain after `free(ptr)`. -/
def freedChain (ptr : U32) (h : Heap W) : List U32 :=
  match findBlock ptr h with
  | .entry i => h.chain.set i (markFree (chainWord h.chain i))
  | _ => h.chain

theorem setWord_markFree (ptr : U32) (h : Heap W) :
    h.setWord (markFree (h.word (findBlock ptr h))) (findBlock ptr h) =
      { h with chain := freedChain ptr h } := by
  rw [freedChain]
  cases findBlock ptr h <;> rfl

theorem free_eq (unlocked : h.memlock = false) (ptr : U32) :
    free ptr h = some (ptr, { h with chain := freedChain ptr h, memlock := false }) := by
  have marked := setWord_markFree ptr { h with memlock := true }
  rw [free, acquire, unlocked]
  simp only [Bool.false_eq_true, if_false, bind_eq_bind, bind_some]
  rw [marked]
  rfl

theorem free_outcome (done : free ptr h = some (r, h')) :
    h.memlock = false ∧ h' = { h with chain := freedChain ptr h, memlock := false } := by
  cases locked : h.memlock with
  | true =>
    rw [free, acquire, locked] at done
    cases done
  | false =>
    rw [free_eq locked] at done
    cases done
    exact ⟨rfl, rfl⟩

theorem printf_outcome (done : printf env h = some h') :
    ∃ buf mid, malloc env 256#32 h = some (buf, mid) ∧
      h' = { mid with
        chain := freedChain buf mid
        memlock := false
        world := env.formatInto buf mid.world } := by
  obtain ⟨⟨buf, mid⟩, allocated, done⟩ := bind_eq_some_iff.mp done
  obtain ⟨⟨q, after⟩, freed, done⟩ := bind_eq_some_iff.mp done
  cases done
  exact ⟨buf, mid, allocated, (free_outcome freed).2⟩

/-! ### `malloc_a` and `realloc` -/

theorem blockchainAdd_full {size : U32} (full : maxBlocks < h.chain.length) :
    blockchainAdd size h = (false, { h with notes := .refused :: h.notes }) :=
  if_pos full

theorem blockchainAdd_room {size : U32} (room : ¬ maxBlocks < h.chain.length) :
    blockchainAdd size h = (true, { h with chain := h.chain ++ [markUsed (blockSize size)] }) :=
  if_neg room

/-- The notes after `malloc_a` has formed its page boundary. -/
def padNotes (h : Heap W) : List HeapNote :=
  sumNotes (h.kLastAlloc &&& ~~~0xFFF#32) 0x1000#32 h.notes

theorem noted_padNotes (h : Heap W) :
    Noted h.notes (padNotes h)
      ((h.kLastAlloc &&& ~~~0xFFF#32).toNat + (0x1000#32).toNat < 2 ^ 32) :=
  noted_sumNotes _ _ _

/-- The heap once `malloc_a` has appended its padding, still marked used. -/
def withPad (h : Heap W) : Heap W :=
  { h with
    chain := h.chain ++ [markUsed (blockSize (pageDiff h.kLastAlloc))]
    kLastAlloc := h.kLastAlloc + pageDiff h.kLastAlloc
    notes := padNotes h }

/-- The first half of `malloc_a` as one equation. -/
theorem padToPage_eq (env : HeapEnv W) (h : Heap W) :
    padToPage env h =
      if pageDiff h.kLastAlloc = 0x1000#32 then some (true, { h with notes := padNotes h })
      else if maxBlocks < h.chain.length then
        some (false, { h with notes := .refused :: padNotes h })
      else
        (translate (printf env) h.chain.length (withPad h)).bind fun t =>
          (free t.1 t.2).bind fun f => some (true, f.2) := by
  have noted : h.noteSum (h.kLastAlloc &&& ~~~0xFFF#32) 0x1000#32 =
      { h with notes := padNotes h } := by
    rw [Heap.noteSum, padNotes]
  simp only [padToPage]
  rw [noted]
  by_cases onPage : pageDiff h.kLastAlloc = 0x1000#32
  · rw [if_neg (not_not.mpr onPage), if_pos onPage]
  · rw [if_pos onPage, if_neg onPage]
    by_cases full : maxBlocks < h.chain.length
    · rw [blockchainAdd_full (h := { h with notes := padNotes h }) full, if_pos full]
      rfl
    · rw [blockchainAdd_room (h := { h with notes := padNotes h }) full, if_neg full]
      simp only [Bool.not_true, Bool.false_eq_true, if_false, length_append,
        length_singleton, Nat.add_sub_cancel]
      rfl

theorem padToPage_cases {r : Bool} (done : padToPage env h = some (r, h')) :
    (pageDiff h.kLastAlloc = 0x1000#32 ∧ r = true ∧ h' = { h with notes := padNotes h }) ∨
    (pageDiff h.kLastAlloc ≠ 0x1000#32 ∧ r = false ∧
      h' = { h with notes := .refused :: padNotes h }) ∨
    (pageDiff h.kLastAlloc ≠ 0x1000#32 ∧ r = true ∧ ∃ ptr mid q,
      translate (printf env) h.chain.length (withPad h) = some (ptr, mid) ∧
        free ptr mid = some (q, h')) := by
  rw [padToPage_eq] at done
  split at done
  · rename_i onPage
    cases done
    exact Or.inl ⟨onPage, rfl, rfl⟩
  · rename_i off
    split at done
    · cases done
      exact Or.inr (Or.inl ⟨off, rfl, rfl⟩)
    · obtain ⟨⟨ptr, mid⟩, translated, done⟩ := bind_eq_some_iff.mp done
      obtain ⟨⟨q, after⟩, freed, done⟩ := bind_eq_some_iff.mp done
      cases done
      exact Or.inr (Or.inr ⟨off, rfl, ptr, mid, q, translated, freed⟩)

/-- The heap once `malloc_a(n)` has appended its block, before it looks at the
top. -/
def withBlock (n : U32) (h : Heap W) : Heap W :=
  { h with
    chain := h.chain ++ [markUsed (blockSize n)]
    kLastAlloc := h.kLastAlloc + n
    notes := sumNotes h.kLastAlloc n h.notes }

/-- `malloc_a` as one equation on what the padding leaves. -/
theorem mallocA_eq (env : HeapEnv W) (n : U32) (h : Heap W) :
    mallocA env n h =
      (padToPage env h).bind fun padded =>
        if padded.1 = false then some (null, padded.2)
        else if maxBlocks < padded.2.chain.length then
          some (null, { padded.2 with notes := .refused :: padded.2.notes })
        else if padded.2.kHeapTop ≤ (withBlock n padded.2).kLastAlloc then
          (sbrk env (printf env)
            (((withBlock n padded.2).kLastAlloc - padded.2.kHeapTop) + 0x1000#32)
            (withBlock n padded.2)).bind fun grown => some (padded.2.kLastAlloc, grown.2)
        else some (padded.2.kLastAlloc, withBlock n padded.2) := by
  rw [mallocA]
  congr 1
  funext padded
  obtain ⟨r, mid⟩ := padded
  cases r with
  | false => rfl
  | true =>
    simp only [Bool.not_true, Bool.false_eq_true, if_false]
    by_cases full : maxBlocks < mid.chain.length
    · rw [blockchainAdd_full full, if_pos full]
      rfl
    · rw [blockchainAdd_room full, if_neg full]
      rfl

theorem mallocA_cases (done : mallocA env n h = some (p, h')) :
    ∃ r mid, padToPage env h = some (r, mid) ∧
      ((r = false ∧ p = null ∧ h' = mid) ∨
      (r = true ∧ p = null ∧ h' = { mid with notes := .refused :: mid.notes }) ∨
      (r = true ∧ p = mid.kLastAlloc ∧
        (h' = withBlock n mid ∧ (withBlock n mid).kLastAlloc < mid.kHeapTop ∨
        mid.kHeapTop ≤ (withBlock n mid).kLastAlloc ∧ ∃ q, sbrk env (printf env)
          (((withBlock n mid).kLastAlloc - mid.kHeapTop) + 0x1000#32) (withBlock n mid) =
            some (q, h')))) := by
  rw [mallocA_eq] at done
  obtain ⟨⟨r, mid⟩, padded, done⟩ := Option.bind_eq_some_iff.mp done
  refine ⟨r, mid, padded, ?_⟩
  split at done
  · rename_i isFalse
    cases done
    exact Or.inl ⟨isFalse, rfl, rfl⟩
  · rename_i notFalse
    have isTrue := Bool.eq_true_of_not_eq_false notFalse
    split at done
    · cases done
      exact Or.inr (Or.inl ⟨isTrue, rfl, rfl⟩)
    · split at done
      · rename_i reaches
        obtain ⟨⟨q, after⟩, grown, done⟩ := Option.bind_eq_some_iff.mp done
        cases done
        exact Or.inr (Or.inr ⟨isTrue, rfl, Or.inr ⟨reaches, q, grown⟩⟩)
      · rename_i below
        cases done
        exact Or.inr (Or.inr ⟨isTrue, rfl, Or.inl ⟨rfl, BitVec.not_le.mp below⟩⟩)

/-- `realloc`: the new block, the old one marked free, the copy, the report. -/
theorem realloc_cases (done : realloc env ptr n h = some (p, h')) :
    ∃ new mid world, malloc env n h = some (new, mid) ∧
      printf env { mid with chain := freedChain ptr mid, memlock := false, world } = some h' ∧
      (findBlock ptr mid = .null ∧ p = null ∨ p = new) ∧
      (world = mid.world ∨ ∃ m, world = env.memcpy new ptr m mid.world) := by
  obtain ⟨⟨new, mid⟩, allocated, done⟩ := bind_eq_some_iff.mp done
  have marked := setWord_markFree ptr mid
  -- a report is made with the lock free
  have free : ∀ {world}, printf env { mid with chain := freedChain ptr mid, world } = some h' →
      printf env { mid with chain := freedChain ptr mid, memlock := false, world } =
        some h' := by
    intro world printed
    obtain ⟨_, _, buffered, _⟩ := printf_outcome printed
    have unlocked := malloc_unlocked (by decide : 256#32 ≠ 0#32) buffered
    dsimp only at unlocked
    rwa [unlocked] at printed
  cases found : findBlock ptr mid with
  | null =>
    simp only [found] at done
    obtain ⟨after, printed, done⟩ := bind_eq_some_iff.mp done
    cases done
    refine ⟨new, mid, mid.world, allocated, free ?_, Or.inl ⟨found, rfl⟩, Or.inl rfl⟩
    simpa [freedChain, found] using printed
  | beforeChain =>
    rw [found] at marked
    simp only [found, marked] at done
    obtain ⟨after, printed, done⟩ := bind_eq_some_iff.mp done
    cases done
    exact ⟨_, mid, _, allocated, free printed, Or.inr rfl, Or.inr ⟨_, rfl⟩⟩
  | entry i =>
    rw [found] at marked
    simp only [found, marked] at done
    obtain ⟨after, printed, done⟩ := bind_eq_some_iff.mp done
    cases done
    exact ⟨_, mid, _, allocated, free printed, Or.inr rfl, Or.inr ⟨_, rfl⟩⟩

/-! ### What a call is made of -/

@[simp] theorem length_freedChain (ptr : U32) (h : Heap W) :
    (freedChain ptr h).length = h.chain.length := by
  rw [freedChain]
  cases findBlock ptr h <;> simp

/-- The changes a call is made of. The notes grow, the chain gets no shorter and the lock
is not left held, and what the rest of the machine sees are the effects of `HeapEnv`. -/
inductive Change (env : HeapEnv W) (h : Heap W) : Heap W → Prop where
  | note {notes : List HeapNote} (kept : h.notes ⊆ notes) : Change env h { h with notes }
  | chain {chain : List U32} {last : U32} {memlock : Bool}
      (longer : h.chain.length ≤ chain.length) (released : h.memlock = false → memlock = false) :
      Change env h { h with chain, kLastAlloc := last, memlock }
  | grow (top : U32) :
      Change env h { h with kHeapTop := top, world := env.backTo h.kHeapTop top h.world }
  | format (buf : U32) : Change env h { h with world := env.formatInto buf h.world }
  | copy (new old n : U32) : Change env h { h with world := env.memcpy new old n h.world }

/-- One change after the other. -/
abbrev Changes (env : HeapEnv W) : Heap W → Heap W → Prop :=
  Relation.ReflTransGen (Change env)

namespace Changes

theorem kept (changes : Changes env h h') : h.notes ⊆ h'.notes := by
  induction changes with
  | refl => exact List.Subset.refl _
  | tail _ last ih =>
    cases last with
    | note kept => exact List.Subset.trans ih kept
    | _ => exact ih

theorem quiet (changes : Changes env h h') (noWrap : HeapNote.wrapped ∉ h'.notes) :
    HeapNote.wrapped ∉ h.notes := fun member => noWrap (changes.kept member)

theorem unlocked (changes : Changes env h h') (unlocked : h.memlock = false) :
    h'.memlock = false := by
  induction changes with
  | refl => exact unlocked
  | tail _ last ih =>
    cases last with
    | chain _ released => exact released ih
    | _ => exact ih

theorem longer (changes : Changes env h h') : h.chain.length ≤ h'.chain.length := by
  induction changes with
  | refl => exact Nat.le_refl _
  | tail _ last ih =>
    cases last with
    | chain longer _ => exact Nat.le_trans ih longer
    | _ => exact ih

theorem malloc (done : Crunchy.malloc env n h = some (p, h')) : Changes env h h' := by
  cases malloc_outcome done with
  | zero => exact .refl
  | reuse => exact .single (.chain (by simp) fun _ => rfl)
  | refused =>
    exact .tail (.single (.note (subset_cons_self _ _))) (.chain (Nat.le_refl _) fun _ => rfl)
  | @new top _ _ _ _ _ noted =>
    exact .tail (.tail (.single (.note noted.kept)) (.grow top))
      (.chain (by simp) fun _ => rfl)

theorem free (done : Crunchy.free ptr h = some (r, h')) : Changes env h h' := by
  rw [(free_outcome done).2]
  exact .single (.chain (by simp) fun _ => rfl)

theorem printf (done : Crunchy.printf env h = some h') : Changes env h h' := by
  obtain ⟨buf, mid, allocated, rfl⟩ := printf_outcome done
  exact .tail (.tail (malloc allocated) (.format buf)) (.chain (by simp) fun _ => rfl)

theorem translate {b : Nat}
    (done : Crunchy.translate (Crunchy.printf env) b h = some (p, h')) : Changes env h h' := by
  rw [Crunchy.translate] at done
  split at done
  · cases done
    exact .refl
  · dsimp only at done
    split at done
    · obtain ⟨after, printed, done⟩ := bind_eq_some_iff.mp done
      cases done
      exact printf printed
    · cases done
      exact .refl

theorem sbrk (done : Crunchy.sbrk env (Crunchy.printf env) m h = some (r, h')) :
    Changes env h h' := by
  rcases sbrk_outcome done with ⟨top, notes, _, noted, rfl⟩ | printed
  · exact .tail (.single (.note noted.kept)) (.grow top)
  · refine .head (.note ?_) (printf printed)
    exact List.Subset.trans (noted_sumNotes m h.kHeapTop h.notes).kept (subset_cons_self _ _)

theorem padToPage {r : Bool} (done : Crunchy.padToPage env h = some (r, h')) :
    Changes env h h' := by
  have noted := (noted_padNotes h).kept
  rcases padToPage_cases done with ⟨_, _, rfl⟩ | ⟨_, _, rfl⟩ |
    ⟨_, _, ptr, mid, q, translated, freed⟩
  · exact .single (.note noted)
  · exact .single (.note (List.Subset.trans noted (subset_cons_self _ _)))
  · have padded : Changes env h (withPad h) :=
      .tail (.single (.note noted)) (.chain (by simp) id)
    exact padded.trans ((translate translated).trans (free freed))

/-- The block `malloc_a` appends after the padding. -/
theorem withBlock (n : U32) (h : Heap W) : Changes env h (Crunchy.withBlock n h) :=
  .tail (.single (.note (noted_sumNotes h.kLastAlloc n h.notes).kept)) (.chain (by simp) id)

theorem mallocA (done : Crunchy.mallocA env n h = some (p, h')) : Changes env h h' := by
  obtain ⟨r, mid, padded, rest⟩ := mallocA_cases done
  refine (padToPage padded).trans ?_
  rcases rest with ⟨_, _, rfl⟩ | ⟨_, _, rfl⟩ | ⟨_, _, ⟨rfl, _⟩ | ⟨_, q, grown⟩⟩
  · exact .refl
  · exact .single (.note (subset_cons_self _ _))
  · exact withBlock n mid
  · exact (withBlock n mid).trans (sbrk grown)

theorem realloc (done : Crunchy.realloc env ptr n h = some (p, h')) : Changes env h h' := by
  obtain ⟨new, mid, world, allocated, printed, _, copied⟩ := realloc_cases done
  have moved : Changes env mid { mid with world } := by
    rcases copied with rfl | ⟨m, rfl⟩
    · exact .refl
    · exact .single (.copy new ptr m)
  refine (malloc allocated).trans (.trans (.tail moved ?_) (printf printed))
  exact .chain (by simp) fun _ => rfl

end Changes

/-- `sbrk` outside the lock: it moves the top, or leaves a note of `HEAP FULL`. -/
theorem sbrk_noted (done : sbrk env (printf env) m h = some (r, h')) :
    (∃ top notes, brk m h.kHeapTop = some top ∧
      Noted h.notes notes (m = 0#32 ∨ m.toNat + h.kHeapTop.toNat < 2 ^ 32) ∧
      h' = { h with kHeapTop := top, notes, world := env.backTo h.kHeapTop top h.world }) ∨
    HeapNote.heapFull ∈ h'.notes := by
  rcases sbrk_outcome done with grown | printed
  · exact Or.inl grown
  · exact Or.inr ((Changes.printf printed).kept (mem_cons_self ..))

end Crunchy
