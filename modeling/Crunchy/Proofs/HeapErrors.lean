/-
Module: Crunchy.Proofs.HeapErrors
Purpose: The heap's failures: freeing a pointer that is not in the heap, and what
  an allocation that returns `NULL` leaves behind.
Trusted boundary: none
Main exports: stray_free_harmless_iff, failed_call_untouched, reachable_filled
-/
import Crunchy.Proofs.HeapLive

namespace Crunchy

open Lib BitVec Option List BitVec

variable {W : Type} {env : HeapEnv W}

variable {i k : Nat} {n p ptr r : U32}

/-! ### Freeing a pointer that is not in the heap -/

/-- The loop of `find_block` runs to the end of the chain for a distance that no
block covers. -/
theorem findBlockLoop_of_past {toTraverse total : U32} {words : List U32} (block : Nat)
    (fits : total.toNat + (sizes words).sum < 2 ^ 32)
    (past : total.toNat + (sizes words).sum ≤ toTraverse.toNat) :
    findBlockLoop toTraverse words total block = block + words.length := by
  induction words generalizing total block with
  | nil => rfl
  | cons w rest ih =>
    simp only [sizes_cons, sum_cons] at fits past
    have step : (total + blockSize w).toNat = total.toNat + (blockSize w).toNat := by
      rw [toNat_add, Nat.mod_eq_of_lt (by omega)]
    rw [findBlockLoop, if_neg (by rw [lt_def, step]; omega),
      ih (block + 1) (by omega) (by omega), length_cons]
    omega

/-- Below the heap the unsigned difference is past its end, and at the end it is the
sum of all sizes: both come to the last block. -/
theorem findBlock_outside {h : Heap W} (books : Accounted h) (entries : h.chain ≠ [])
    (outside : p.toNat < kHeapBottom.toNat ∨ h.kLastAlloc.toNat ≤ p.toNat)
    (known : ¬ h.kLastAlloc < p) : findBlock p h = .entry (h.chain.length - 1) := by
  have last := books.last
  have positive := length_pos_of_ne_nil entries
  rw [toNat_kHeapBottom] at last outside
  have past : (0#32).toNat + (sizes h.chain).sum ≤ (p - kHeapBottom).toNat := by
    rw [toNat_sub, toNat_kHeapBottom, toNat_ofNat]
    omega
  rw [findBlock, if_neg known, findBlockLoop_of_past 0 (by rw [toNat_ofNat]; omega) past]
  obtain ⟨k, count⟩ : ∃ k, h.chain.length = k + 1 := ⟨h.chain.length - 1, by omega⟩
  rw [count, Nat.zero_add, Nat.add_sub_cancel]

/-- Clearing the used bit changes the words of the blocks in use. -/
theorem markFree_eq_self_iff (w : U32) : markFree w = w ↔ blockUsed w = 0#32 := by
  constructor
  · intro same
    rw [← same]
    exact blockUsed_markFree w
  · intro unused
    have value := congrArg BitVec.toNat unused
    rw [blockUsed, toNat_ushiftRight_div, toNat_ofNat] at value
    apply eq_of_toNat_eq
    rw [markFree, ← blockSize, toNat_blockSize]
    omega

/-- Freeing the block at `i` leaves the chain alone exactly when it is free. -/
theorem set_markFree_eq_iff {chain : List U32} (inside : i < chain.length) :
    chain.set i (markFree (chainWord chain i)) = chain ↔ blockUsed (chainWord chain i) = 0#32 := by
  have word : chainWord chain i = chain[i] := by simp [chainWord, inside]
  rw [← markFree_eq_self_iff, word]
  constructor
  · intro same
    have atIndex := congrArg (fun words => chainWord words i) same
    simpa [chainWord, inside] using atIndex
  · intro same
    rw [same, set_getElem_self]

/-- In every state a run reaches without wrapping an address sum, freeing a pointer
outside of the heap does no harm exactly when the pointer lies above the heap's end
or the last block happens to be free. -/
theorem stray_free_harmless_iff {run : HeapRun W}
    (reached : ((heapSystem env).within NoWrap).Reachable run) (entries : run.heap.chain ≠ [])
    (p : U32)
    (outside : p.toNat < kHeapBottom.toNat ∨ run.heap.kLastAlloc.toNat ≤ p.toNat) :
    (∃ r h', free p run.heap = some (r, h') ∧ h'.chain = run.heap.chain) ↔
      run.heap.kLastAlloc < p ∨ blockUsed (run.heap.chain.getLast entries) = 0#32 := by
  have books := Accounted.of_reachable reached
  have returns := free_eq books.unlocked p
  have kept : (∃ r h', free p run.heap = some (r, h') ∧ h'.chain = run.heap.chain) ↔
      freedChain p run.heap = run.heap.chain := by
    rw [returns]
    constructor
    · rintro ⟨r, h', done, same⟩
      cases done
      exact same
    · exact fun same => ⟨p, _, rfl, same⟩
  rw [kept, freedChain]
  by_cases above : run.heap.kLastAlloc < p
  · rw [findBlock, if_pos above]
    simp [above]
  · have inside : run.heap.chain.length - 1 < run.heap.chain.length :=
      Nat.sub_lt (length_pos_of_ne_nil entries) Nat.one_pos
    have word : chainWord run.heap.chain (run.heap.chain.length - 1) =
        run.heap.chain.getLast entries := by
      rw [getLast_eq_getElem]
      simp [chainWord, inside]
    rw [findBlock_outside books entries outside above, set_markFree_eq_iff inside, word]
    simp [above]

/-- A pointer above the heap's end. -/
theorem free_above_heap_harmless :
    ∃ run : HeapRun Unit, ((heapSystem bareEnv).within NoWrap).Reachable run ∧
      run.heap.chain ≠ [] ∧
      ∃ r h', free 0xD0000000#32 run.heap = some (r, h') ∧ h'.chain = run.heap.chain :=
  have reached := (reachable_of_legal reachable_sixteen).1
  ⟨_, reached, by decide, (stray_free_harmless_iff reached (by decide) 0xD0000000#32
    (Or.inr (by decide))).mpr (Or.inl (by decide))⟩

/-- `free(NULL)` frees the last block. -/
theorem free_null_frees_last :
    ¬ ∀ run : HeapRun Unit, (heapSystem bareEnv).Reachable run → run.heap.chain ≠ [] →
      ∀ p : U32, p.toNat < kHeapBottom.toNat ∨ run.heap.kLastAlloc.toNat ≤ p.toNat →
        ∃ r h', free p run.heap = some (r, h') ∧ h'.chain = run.heap.chain := by
  intro harmless
  obtain ⟨r, h', done, same⟩ := harmless _ (reachable_of_legal reachable_sixteen).2 (by decide)
    null (by decide)
  have freed : free null (smallHeap [0x80000010#32] 0xC0300010#32) =
      some (null, smallHeap [0x10#32] 0xC0300010#32) := by decide +kernel
  rw [freed] at done
  cases done
  exact absurd same (by decide)

/-! ### No call shortens the chain -/

section Length

variable {h h' : Heap W}

/-- While the chain takes entries the padding is not refused. -/
theorem padToPage_of_room {r : Bool} (done : padToPage env h = some (r, h'))
    (room : h.chain.length ≤ maxBlocks) : r = true := by
  rw [padToPage_eq, if_neg (Nat.not_lt.mpr room)] at done
  split at done
  · cases done
    rfl
  · obtain ⟨_, _, done⟩ := bind_eq_some_iff.mp done
    obtain ⟨_, _, done⟩ := bind_eq_some_iff.mp done
    cases done
    rfl

/-- A `malloc_a` that is not refused at once makes the chain longer, whatever it
returns: the block comes in, or the padding has taken the last entry. -/
theorem mallocA_grows (room : h.chain.length ≤ maxBlocks)
    (done : mallocA env n h = some (p, h')) :
    h.chain.length < h'.chain.length := by
  rw [mallocA_eq] at done
  obtain ⟨⟨r, mid⟩, padded, done⟩ := bind_eq_some_iff.mp done
  have longer := (Changes.padToPage padded).longer
  have appended : h.chain.length < (withBlock n mid).chain.length := by
    simp only [withBlock, length_append, length_singleton]
    omega
  split at done
  · rename_i isFalse
    rw [padToPage_of_room padded room] at isFalse
    cases isFalse
  · split at done
    · rename_i full
      cases done
      exact Nat.lt_of_le_of_lt room full
    · split at done
      · obtain ⟨⟨q, after⟩, grown, done⟩ := bind_eq_some_iff.mp done
        cases done
        exact Nat.lt_of_lt_of_le appended (Changes.sbrk grown).longer
      · cases done
        exact appended

end Length

/-! ### Allocations that fail -/

/-- The heap is as it was: the chain, both ends, and the memory. -/
structure Untouched (h h' : Heap W) : Prop where
  chain : h'.chain = h.chain
  last : h'.kLastAlloc = h.kLastAlloc
  top : h'.kHeapTop = h.kHeapTop
  world : h'.world = h.world

section Failures

variable {n p : U32} {h h' : Heap W}

/-- While the books are kept, `malloc` returns `NULL` only for want of an entry. -/
theorem malloc_eq_null (books : Accounted h) (positive : n ≠ 0#32)
    (done : malloc env n h = some (p, h')) (isNull : p = null) :
    maxBlocks < h.chain.length ∧
      h' = { h with notes := .refused :: h.notes, memlock := false } := by
  have last := books.last
  cases malloc_outcome done with
  | zero isZero => exact absurd isZero positive
  | reuse _ best =>
    refine absurd isNull (ne_null_of_low ?_)
    rw [toNat_translate books (Nat.le_of_lt best.1)]
    exact Nat.le_add_right _ _
  | refused _ _ full => exact ⟨full, rfl⟩
  | new => exact absurd isNull (ne_null_of_low (by omega))

/-- `malloc_a` on a full chain. -/
theorem mallocA_full (env : HeapEnv W) (n : U32) (full : maxBlocks < h.chain.length) :
    ∃ h', mallocA env n h = some (null, h') ∧ Untouched h h' := by
  refine ⟨{ h with notes := .refused :: padNotes h }, ?_, ⟨rfl, rfl, rfl, rfl⟩⟩
  rw [mallocA_eq, padToPage_eq, if_pos full]
  by_cases onPage : pageDiff h.kLastAlloc = 0x1000#32
  · rw [if_pos onPage]
    exact if_pos full
  · rw [if_neg onPage]
    rfl

/-- Freeing makes no block used. -/
theorem freedChain_keeps_free (ptr : U32) (unused : blockUsed (chainWord h.chain i) = 0#32) :
    blockUsed (chainWord (freedChain ptr h) i) = 0#32 := by
  rw [freedChain]
  cases findBlock ptr h with
  | null => exact unused
  | beforeChain => exact unused
  | entry j =>
    by_cases inside : j < h.chain.length
    · simp only [chainWord_set fun _ => inside]
      split
      · exact blockUsed_markFree _
      · exact unused
    · simp only [set_eq_of_length_le (Nat.le_of_not_lt inside)]
      exact unused

/-- A free block that is marked used and then free is as it was. -/
theorem markFree_markUsed {w : U32} (unused : blockUsed w = 0#32) : markFree (markUsed w) = w := by
  have same : markFree (markUsed w) = blockSize w := blockSize_markUsed w
  rw [same]
  exact (markFree_eq_self_iff w).mpr unused

/-- The block `malloc` reuses lies before the end of the heap. -/
theorem reused_low (books : Accounted h) (inside : i < h.chain.length) :
    ¬ h.kLastAlloc < kHeapBottom + sizeBefore h.chain i := by
  have address := toNat_translate books (Nat.le_of_lt inside)
  have last := books.last
  have inSizes : i < (sizes h.chain).length := by
    rw [length_sizes]
    exact inside
  have stop := end_le_sum inSizes
  rw [lt_def]
  omega

/-- A `printf` whose buffer is a free block leaves that block free: the address of the
buffer leads back to it. -/
theorem printf_reuse (env : HeapEnv W) (books : Accounted h)
    (search : findBestFree 256#32 h.chain = some (some i))
    (best : BestFit 256#32 (256#32 * 3#32) h.chain h.chain.length (some i)) :
    printf env h =
      some { h with world := env.formatInto (kHeapBottom + sizeBefore h.chain i) h.world } := by
  obtain ⟨inside, ⟨large, _, unused⟩, _⟩ := best
  have bytes : 0 < (blockSize (chainWord h.chain i)).toNat :=
    Nat.lt_of_lt_of_le (by decide) (le_def.mp large)
  have kept : sizes (h.chain.set i (markUsed (chainWord h.chain i))) = sizes h.chain :=
    sizes_set (blockSize_markUsed _)
  have covers := covers_chain inside bytes
  have address := toNat_translate books (Nat.le_of_lt inside)
  rw [← kept] at covers address
  have found := findBlock_of_covers (h := { h with
      chain := h.chain.set i (markUsed (chainWord h.chain i))
      memlock := false
      world := env.formatInto (kHeapBottom + sizeBefore h.chain i) h.world })
    (books.last.trans (by rw [kept])) covers address
  have back : (h.chain.set i (markUsed (chainWord h.chain i))).set i
      (markFree (chainWord (h.chain.set i (markUsed (chainWord h.chain i))) i)) = h.chain := by
    rw [chainWord_set fun _ => inside, if_pos rfl, markFree_markUsed unused, set_set]
    simp [chainWord, inside]
  rw [printf, printfWith, malloc_reuse env (by decide) books.unlocked search inside,
    if_neg (reused_low books inside)]
  simp only [bind_eq_bind, bind_some]
  rw [free_eq rfl, freedChain, found]
  simp only [bind_some, back]
  rw [← books.unlocked]

/-- A `printf` that gets no buffer frees `NULL`. -/
theorem printf_refused_eq (env : HeapEnv W) (unlocked : h.memlock = false)
    (noFit : findBestFree 256#32 h.chain = some none) (full : maxBlocks < h.chain.length) :
    printf env h =
      some { h with
        chain := freedChain null h
        memlock := false
        notes := .refused :: h.notes
        world := env.formatInto null h.world } := by
  rw [printf, printfWith, malloc_refused env (by decide) unlocked noFit full]
  simp only [bind_eq_bind, bind_some]
  rw [free_eq rfl]
  rfl

/-- On a full chain `printf` gives the block of its buffer back, if it gets one. -/
theorem printf_keeps_free (books : Accounted h) (full : maxBlocks < h.chain.length)
    (printed : printf env h = some h') (unused : blockUsed (chainWord h.chain i) = 0#32) :
    blockUsed (chainWord h'.chain i) = 0#32 := by
  obtain ⟨found, search, best⟩ := findBestFree_spec (n := 256#32) (by decide) h.chain
  cases found with
  | some j =>
    rw [printf_reuse env books search best] at printed
    cases printed
    exact unused
  | none =>
    rw [printf_refused_eq env books.unlocked search full] at printed
    cases printed
    exact freedChain_keeps_free null unused

theorem findBlock_eq_null_iff : findBlock ptr h = .null ↔ h.kLastAlloc < ptr := by
  rw [findBlock]
  by_cases above : h.kLastAlloc < ptr
  · simp [above]
  · rw [if_neg above]
    split <;> simp [above]

/-- The free of a refused `realloc`: the block is marked free, and still is after the
report. -/
theorem freed_after_refusal (books : Accounted h) (full : maxBlocks < h.chain.length)
    (found : findBlock ptr h = .entry i) (used : blockUsed (chainWord h.chain i) ≠ 0#32)
    (printed : printf env { h with chain := freedChain ptr h, memlock := false } = some h') :
    blockUsed (chainWord h'.chain i) = 0#32 := by
  have inside : i < h.chain.length := by
    by_contra outside
    apply used
    rw [chainWord, getD_eq_default _ _ (Nat.le_of_not_lt outside)]
    rfl
  have marked : freedChain ptr h = h.chain.set i (markFree (chainWord h.chain i)) := by
    rw [freedChain, found]
  rw [marked] at printed
  have accounted : Accounted
      { h with chain := h.chain.set i (markFree (chainWord h.chain i)), memlock := false } :=
    books.withChain (sizes_set (blockSize_markFree _))
  refine printf_keeps_free accounted (by simpa using full) printed ?_
  rw [chainWord_set fun _ => inside, if_pos rfl]
  exact blockUsed_markFree _

/-- A `realloc` that returns `NULL` has marked the old block free all the same, or
has made a new one. -/
theorem realloc_eq_null (books : Accounted h) (positive : n ≠ 0#32)
    (found : findBlock ptr h = .entry i) (used : blockUsed (chainWord h.chain i) ≠ 0#32)
    (done : realloc env ptr n h = some (p, h')) (isNull : p = null) : h'.chain ≠ h.chain := by
  obtain ⟨new, mid, world, allocated, printed, isNew, _⟩ := realloc_cases done
  intro same
  by_cases newNull : new = null
  · -- `malloc` was refused, so the chain was full and stayed as it was
    obtain ⟨full, rfl⟩ := malloc_eq_null books positive allocated newNull
    have accounted : Accounted { h with notes := .refused :: h.notes, world } :=
      (books.withNotes (.refused :: h.notes)).withWorld world
    have unused := freed_after_refusal accounted full found used printed
    rw [same] at unused
    exact used unused
  · have notFound : findBlock ptr mid = .null := by
      rcases isNew with ⟨nothing, _⟩ | isNew
      · exact nothing
      · exact absurd (isNew.symm.trans isNull) newNull
    have known : ¬ h.kLastAlloc < ptr := by
      rw [← findBlock_eq_null_iff, found]
      exact BlockPtr.noConfusion
    have longer := (Changes.printf printed).longer
    simp only [length_freedChain] at longer
    have above := findBlock_eq_null_iff.mp notFound
    cases malloc_outcome allocated with
    | zero isZero => exact absurd isZero positive
    | refused => exact absurd rfl newNull
    | reuse => exact absurd above known
    | new =>
      -- the end of the heap has wrapped below `ptr`
      simp only [length_append, length_singleton] at longer
      rw [same] at longer
      omega

/-- With one entry left, off a page boundary, `malloc_a` spends it on the padding. -/
theorem mallocA_last_entry (env : HeapEnv W) (books : Accounted h)
    (fits : (h.kLastAlloc &&& ~~~0xFFF#32).toNat + (0x1000#32).toNat < 2 ^ 32)
    (offPage : pageDiff h.kLastAlloc ≠ 0x1000#32) (oneLeft : h.chain.length = maxBlocks) :
    ∃ h', mallocA env n h = some (null, h') := by
  obtain ⟨translated, _, _, _⟩ := withPad_spec env books fits
  have full : maxBlocks < (freedChain h.kLastAlloc (withPad h)).length := by
    simp [withPad, oneLeft]
  rw [mallocA_eq, padToPage_eq, if_neg offPage, if_neg (by omega), translated, bind_some,
    free_eq (h := withPad h) books.unlocked]
  exact ⟨_, if_pos full⟩

/-- On a full chain `realloc` copies to `NULL` and returns it. -/
theorem realloc_refused (env : HeapEnv W) (unlocked : h.memlock = false) (positive : n ≠ 0#32)
    (noFit : findBestFree n h.chain = some none) (full : maxBlocks < h.chain.length)
    (found : findBlock ptr h = .entry i)
    (noBuffer : findBestFree 256#32 (h.chain.set i (markFree (chainWord h.chain i))) =
      some none) :
    ∃ h', realloc env ptr n h = some (null, h') := by
  have same : findBlock ptr { h with notes := .refused :: h.notes, memlock := false } =
      .entry i := found
  rw [realloc, malloc_refused env positive unlocked noFit full]
  simp only [bind_eq_bind, bind_some, same, Heap.word, Heap.setWord]
  generalize env.memcpy _ _ _ _ = world
  rw [printf_refused_eq env (h := { h with
    chain := h.chain.set i (markFree (chainWord h.chain i))
    memlock := false
    notes := .refused :: h.notes
    world }) rfl noBuffer (by simpa using full)]
  exact ⟨_, rfl⟩

end Failures

/-- What a failed call leaves, in every state a run reaches without wrapping an
address sum: `malloc` nothing, `malloc_a` nothing exactly when the chain was full
before the call, and `realloc` of a block in use always something. -/
theorem failed_call_untouched {run : HeapRun W}
    (reached : ((heapSystem env).within NoWrap).Reachable run) {n : U32} (positive : n ≠ 0#32)
    (h' : Heap W) :
    (malloc env n run.heap = some (null, h') → Untouched run.heap h') ∧
    (mallocA env n run.heap = some (null, h') →
      (Untouched run.heap h' ↔ maxBlocks < run.heap.chain.length)) ∧
    (∀ ptr i, findBlock ptr run.heap = .entry i →
      blockUsed (chainWord run.heap.chain i) ≠ 0#32 →
      realloc env ptr n run.heap = some (null, h') → ¬ Untouched run.heap h') := by
  have books := Accounted.of_reachable reached
  refine ⟨fun done => ?_, fun done => ?_, fun ptr i found used done => ?_⟩
  · obtain ⟨_, rfl⟩ := malloc_eq_null books positive done rfl
    exact ⟨rfl, rfl, rfl, rfl⟩
  · constructor
    · intro same
      by_contra room
      have longer := mallocA_grows (Nat.le_of_not_lt room) done
      rw [same.chain] at longer
      exact Nat.lt_irrefl _ longer
    · intro full
      obtain ⟨after, equation, same⟩ := mallocA_full env n full
      rw [equation] at done
      cases done
      exact same
  · exact fun same => realloc_eq_null books positive found used done rfl same.chain

/-! ### A chain filled up -/

/-- The heap after `k` calls of `malloc(1)`. -/
def filledHeap (k : Nat) : Heap Unit where
  chain := List.replicate k 0x80000001#32
  kHeapTop := 0xC0310000#32
  kLastAlloc := kHeapBottom + BitVec.ofNat 32 k
  memlock := false
  notes := []
  world := ()

@[simp] theorem length_filledHeap (k : Nat) : (filledHeap k).chain.length = k :=
  length_replicate

theorem chainWord_filledHeap (inside : i < k) :
    chainWord (filledHeap k).chain i = 0x80000001#32 := by
  simp [chainWord, filledHeap, inside]

/-- A chain of blocks in use offers none. -/
theorem findBestFree_filled (positive : n ≠ 0#32) (k : Nat) :
    findBestFree n (filledHeap k).chain = some none := by
  obtain ⟨found, search, best⟩ := findBestFree_spec positive (filledHeap k).chain
  cases found with
  | none => exact search
  | some i =>
    obtain ⟨inside, ⟨_, _, unused⟩, _⟩ := best
    rw [length_filledHeap] at inside
    rw [chainWord_filledHeap inside] at unused
    exact absurd unused (by decide)

theorem toNat_filledHeap_last (few : k ≤ 1025) :
    (filledHeap k).kLastAlloc.toNat = 0xC0300000 + k := by
  rw [filledHeap, toNat_add, toNat_kHeapBottom, toNat_ofNat]
  omega

/-- The same heap over any machine. -/
def filledOver (world : W) (k : Nat) : Heap W where
  chain := (filledHeap k).chain
  kHeapTop := 0xC0310000#32
  kLastAlloc := (filledHeap k).kLastAlloc
  memlock := false
  notes := []
  world := world

theorem malloc_filledOver (env : HeapEnv W) (world : W) (few : k ≤ 1024) :
    malloc env 1#32 (filledOver world k) =
      some ((filledHeap k).kLastAlloc, filledOver world (k + 1)) := by
  have last := toNat_filledHeap_last (Nat.le_succ_of_le few)
  have low : ¬ (filledOver world k).kHeapTop ≤ (filledHeap k).kLastAlloc + 1#32 := by
    rw [le_def, toNat_add, last, toNat_ofNat]
    simp only [filledOver, toNat_ofNat]
    omega
  have growth : topAfter 1#32 (filledOver world k) = some 0xC0310000#32 := if_neg low
  obtain ⟨notes, returns, noted⟩ := malloc_new env (by decide) rfl
    (findBestFree_filled (by decide) k) (by simpa [maxBlocks, filledOver] using few) growth
  have quiet : notes = [] := by
    apply noted.same
    refine ⟨?_, fun reaches => absurd reaches low⟩
    show (filledHeap k).kLastAlloc.toNat + _ < _
    rw [last, toNat_ofNat]
    omega
  have chain : (filledHeap k).chain ++ [markUsed (blockSize 1#32)] =
      (filledHeap (k + 1)).chain := by
    rw [filledHeap, filledHeap, List.replicate_succ']
    rfl
  have next : (filledHeap k).kLastAlloc + 1#32 = (filledHeap (k + 1)).kLastAlloc := by
    rw [filledHeap, filledHeap, ofNat_add, add_assoc]
  rw [returns, quiet, filledOver, filledOver, chain, next, backTo_self]

/-- Up to 1025 blocks can be made, as the limit is checked with `>`, and all of them are
live. -/
theorem reachable_filledOver (env : HeapEnv W) (world : W) (few : k ≤ 1025) :
    ∃ after live, (((heapSystem env).restrict LegalCall).within Quiet).Reachable
        { heap := filledOver after k, live } ∧
      ∀ j < k, ((filledHeap j).kLastAlloc, 1#32) ∈ live := by
  induction k with
  | zero =>
    exact ⟨_, [], .start ⟨⟨⟨world, kHeapInit_eq env world⟩, rfl⟩, rfl⟩, fun j below => by omega⟩
  | succ k ih =>
    obtain ⟨after, live, reached, all⟩ := ih (Nat.le_of_succ_le few)
    have done := malloc_filledOver env after (Nat.le_of_succ_le_succ few)
    have last := toNat_filledHeap_last (Nat.le_of_succ_le few)
    have isAdded : addLive (filledHeap k).kLastAlloc 1#32 live =
        ((filledHeap k).kLastAlloc, 1#32) :: live :=
      LiveBlocks.addLive_eq (by rw [last, toNat_kHeapBottom]; omega) live
    refine ⟨after, _, reachable_call reached (.malloc done) trivial rfl, fun j below => ?_⟩
    rw [isAdded]
    rcases Nat.lt_succ_iff_lt_or_eq.mp below with earlier | rfl
    · exact mem_cons_of_mem _ (all j earlier)
    · exact mem_cons_self ..

/-- The machine that records nothing, in runs of any calls. The first block stays live. -/
theorem reachable_filled (few : k ≤ 1025) :
    ∃ live, ((heapSystem bareEnv).within NoWrap).Reachable { heap := filledHeap k, live } ∧
      (heapSystem bareEnv).Reachable { heap := filledHeap k, live } ∧
      (1 ≤ k → (kHeapBottom, 1#32) ∈ live) := by
  obtain ⟨_, live, reached, all⟩ := reachable_filledOver bareEnv () few
  obtain ⟨noWrap, anyRun⟩ := reachable_of_legal reached
  exact ⟨live, noWrap, anyRun, all 0⟩

/-- A byte more than the chain has entries for. -/
theorem refused_byte_untouched :
    ∃ run : HeapRun Unit, ((heapSystem bareEnv).within NoWrap).Reachable run ∧
      ∃ h', malloc bareEnv 1#32 run.heap = some (null, h') ∧ Untouched run.heap h' := by
  obtain ⟨live, reached, _, _⟩ := reachable_filled (k := 1025) (Nat.le_refl _)
  have refused := malloc_refused bareEnv (n := 1#32) (by decide) rfl
    (findBestFree_filled (by decide) 1025) (by rw [length_filledHeap]; decide)
  exact ⟨_, reached, _, refused, (failed_call_untouched reached (by decide) _).1 refused⟩

/-- The blocks of one byte are too small for a buffer. -/
theorem findBestFree_filled_freed (k : Nat) (positive : 0 < k) :
    findBestFree 256#32 ((filledHeap k).chain.set 0 (markFree (chainWord (filledHeap k).chain 0))) =
      some none := by
  obtain ⟨found, search, best⟩ := findBestFree_spec (n := 256#32) (by decide)
    ((filledHeap k).chain.set 0 (markFree (chainWord (filledHeap k).chain 0)))
  cases found with
  | none => exact search
  | some i =>
    obtain ⟨inside, ⟨large, _, _⟩, _⟩ := best
    rw [length_set, length_filledHeap] at inside
    rw [chainWord_set fun _ => by rw [length_filledHeap]; exact positive,
      chainWord_filledHeap positive, chainWord_filledHeap inside] at large
    split at large <;> exact absurd large (by decide)

/-- `malloc_a` and `realloc` return `NULL` and leave another chain than they
found. -/
theorem failed_calls_leave_traces :
    (∃ run : HeapRun Unit, (heapSystem bareEnv).Reachable run ∧
      ∃ h', mallocA bareEnv 1#32 run.heap = some (null, h') ∧ h'.chain ≠ run.heap.chain) ∧
    (∃ run : HeapRun Unit, (heapSystem bareEnv).Reachable run ∧ (kHeapBottom, 1#32) ∈ run.live ∧
      ∃ h', realloc bareEnv kHeapBottom 1#32 run.heap = some (null, h') ∧
        h'.chain ≠ run.heap.chain) := by
  constructor
  · obtain ⟨_, reached, anyRun, _⟩ := reachable_filled (k := 1024) (by decide)
    have books : Accounted (filledHeap 1024) := Accounted.of_reachable reached
    obtain ⟨h', refused⟩ := mallocA_last_entry bareEnv (n := 1#32) books (by decide)
      (by decide) (length_filledHeap 1024)
    refine ⟨_, anyRun, h', refused, fun same => ?_⟩
    have longer := mallocA_grows (by rw [length_filledHeap]; decide) refused
    rw [same] at longer
    exact Nat.lt_irrefl _ longer
  · obtain ⟨_, reached, anyRun, first⟩ := reachable_filled (k := 1025) (Nat.le_refl _)
    have books : Accounted (filledHeap 1025) := Accounted.of_reachable reached
    have word : chainWord (filledHeap 1025).chain 0 = 0x80000001#32 :=
      chainWord_filledHeap (by decide)
    have covers := covers_chain (i := 0)
      (show 0 < (filledHeap 1025).chain.length by rw [length_filledHeap]; decide)
      (by rw [word]; decide)
    have found : findBlock kHeapBottom (filledHeap 1025) = .entry 0 :=
      findBlock_of_covers books.last covers (by simp)
    obtain ⟨h', refused⟩ := realloc_refused bareEnv (n := 1#32) rfl (by decide)
      (findBestFree_filled (by decide) 1025) (by rw [length_filledHeap]; decide) found
      (findBestFree_filled_freed 1025 (by decide))
    refine ⟨_, anyRun, first (by decide), h', refused, ?_⟩
    exact realloc_eq_null books (by decide) found (by rw [word]; decide) refused rfl

end Crunchy
