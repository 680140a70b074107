/-
Module: Crunchy.Proofs.Heap
Purpose: The heap over whole runs: the accounting invariant, which every run keeps
  that wraps no address sum, and the exact condition under which `malloc` is safe
  at the heap limit.
Trusted boundary: none
Main exports: Accounted, HeapRun, heapSystem, MallocSafe, MallocRoom, malloc_safe_iff
-/
import Crunchy.Proofs.HeapCalls
import Crunchy.Lib.Transition

namespace Crunchy

open Lib BitVec Option List

variable {W : Type} {env : HeapEnv W}

variable {h h' : Heap W} {i : Nat} {m n p ptr r top w : U32} {world : W}

theorem toNat_kHeapBottom : kHeapBottom.toNat = 0xC0300000 := rfl

theorem toNat_kHeapMax : kHeapMax.toNat = 0xFFFFF000 := rfl

theorem ne_null_of_low (low : kHeapBottom.toNat ≤ p.toNat) : p ≠ null := by
  rintro rfl
  exact absurd low (by decide)

/-! ### The accounting -/

/-- The heap's books between calls: the next address is the bottom plus all block
sizes, and the top is a page boundary inside the heap's range. -/
structure Accounted (h : Heap W) : Prop where
  last : h.kLastAlloc.toNat = kHeapBottom.toNat + (sizes h.chain).sum
  aligned : h.kHeapTop.toNat % 0x1000 = 0
  low : kHeapBottom.toNat ≤ h.kHeapTop.toNat
  high : h.kHeapTop.toNat ≤ kHeapMax.toNat
  unlocked : h.memlock = false

/-- The top `sbrk(m)` reaches when its sum fits. -/
theorem brk_spec {after : U32} (growth : brk m top = some after)
    (fits : m = 0#32 ∨ m.toNat + top.toNat < 2 ^ 32) (aligned : top.toNat % 0x1000 = 0)
    (high : top.toNat ≤ kHeapMax.toNat) :
    after.toNat % 0x1000 = 0 ∧ after.toNat ≤ kHeapMax.toNat ∧ top.toNat ≤ after.toNat ∧
      (m = 0#32 ∧ after = top ∨
        after.toNat = top.toNat + 0x1000 * max 1 (m.toNat / 0x1000)) := by
  rw [brk] at growth
  split at growth
  · rename_i zero
    cases growth
    exact ⟨aligned, high, Nat.le_refl _, Or.inl ⟨zero, rfl⟩⟩
  · rename_i positive
    split at growth
    · cases growth
    · rename_i below
      cases growth
      have sum := fits.resolve_left positive
      rw [le_def, toNat_add, Nat.mod_eq_of_lt sum, toNat_kHeapMax] at below
      rw [toNat_grown, toNat_kHeapMax]
      omega

/-- The doubled shortfall `malloc` asks `sbrk` for. -/
theorem toNat_shortfall (books : Accounted h) (fits : h.kLastAlloc.toNat + n.toNat < 2 ^ 32)
    (reaches : h.kHeapTop ≤ h.kLastAlloc + n) :
    h.kHeapTop.toNat ≤ h.kLastAlloc.toNat + n.toNat ∧
    (2#32 * ((n + h.kLastAlloc) - h.kHeapTop)).toNat =
      2 * (h.kLastAlloc.toNat + n.toNat - h.kHeapTop.toNat) := by
  have low := books.low
  rw [toNat_kHeapBottom] at low
  rw [le_def, toNat_add, Nat.mod_eq_of_lt fits] at reaches
  rw [toNat_mul, toNat_sub, toNat_add, toNat_ofNat]
  omega

/-- The room `sbrk` makes covers the new block. -/
theorem topAfter_spec (books : Accounted h) (fits : SumsFit n h)
    (growth : topAfter n h = some top) :
    top.toNat % 0x1000 = 0 ∧ h.kHeapTop.toNat ≤ top.toNat ∧ top.toNat ≤ kHeapMax.toNat ∧
      h.kLastAlloc.toNat + n.toNat ≤ top.toNat := by
  have aligned := books.aligned
  have high := books.high
  obtain ⟨sum, inner⟩ := fits
  rw [topAfter] at growth
  split at growth
  · rename_i reaches
    obtain ⟨short, shortfall⟩ := toNat_shortfall books sum reaches
    obtain ⟨multiple, bounded, above, isZero | value⟩ :=
      brk_spec growth (inner reaches) aligned high
    · have none := congrArg BitVec.toNat isZero.1
      rw [shortfall, toNat_ofNat] at none
      refine ⟨multiple, above, bounded, ?_⟩
      omega
    · rw [shortfall] at value
      refine ⟨multiple, above, bounded, ?_⟩
      omega
  · rename_i below
    cases growth
    rw [le_def, toNat_add, Nat.mod_eq_of_lt sum] at below
    exact ⟨aligned, Nat.le_refl _, high, by omega⟩

/-- Freeing changes no size. -/
theorem sizes_freedChain (ptr : U32) (h : Heap W) : sizes (freedChain ptr h) = sizes h.chain := by
  rw [freedChain]
  cases findBlock ptr h with
  | null => rfl
  | beforeChain => rfl
  | entry i => exact sizes_set (blockSize_markFree _)

/-- A word appended for `n` bytes has size `n` while the sums fit: the bit for the
used mark is not needed. -/
theorem toNat_size_of_fits (books : Accounted h) (fits : h.kLastAlloc.toNat + n.toNat < 2 ^ 32) :
    (blockSize (markUsed (blockSize n))).toNat = n.toNat := by
  have last := books.last
  rw [toNat_kHeapBottom] at last
  rw [blockSize_markUsed, blockSize_blockSize, toNat_blockSize]
  omega

/-- The address `translate` computes for a block. -/
theorem toNat_translate (books : Accounted h) (inside : i ≤ h.chain.length) :
    (kHeapBottom + sizeBefore h.chain i).toNat =
      kHeapBottom.toNat + offset (sizes h.chain) i := by
  have last := books.last
  have below : offset (sizes h.chain) i ≤ (sizes h.chain).sum := by
    rw [← offset_length, length_sizes]
    exact offset_mono inside
  rw [toNat_add, toNat_sizeBefore (by omega), Nat.mod_eq_of_lt (by omega)]

namespace Accounted

variable {h h' : Heap W}

theorem withWorld (books : Accounted h) (world : W) : Accounted { h with world } :=
  ⟨books.last, books.aligned, books.low, books.high, books.unlocked⟩

theorem withNotes (books : Accounted h) (notes : List HeapNote) : Accounted { h with notes } :=
  ⟨books.last, books.aligned, books.low, books.high, books.unlocked⟩

/-- Marking blocks keeps the books. -/
theorem withChain (books : Accounted h) {chain : List U32} (same : sizes chain = sizes h.chain) :
    Accounted { h with chain, memlock := false } :=
  ⟨by rw [same]; exact books.last, books.aligned, books.low, books.high, rfl⟩

/-- A block of `n` bytes at the end, with a top that covers it or not. -/
theorem append (books : Accounted h) {notes : List HeapNote}
    (fits : h.kLastAlloc.toNat + n.toNat < 2 ^ 32) (size : (blockSize w).toNat = n.toNat)
    (aligned : top.toNat % 0x1000 = 0) (low : kHeapBottom.toNat ≤ top.toNat)
    (high : top.toNat ≤ kHeapMax.toNat) :
    Accounted
      { chain := h.chain ++ [w]
        kHeapTop := top
        kLastAlloc := h.kLastAlloc + n
        memlock := false
        notes, world } := by
  have last := books.last
  refine ⟨?_, aligned, low, high, rfl⟩
  rw [toNat_add, Nat.mod_eq_of_lt fits, sum_sizes_snoc, size, last]
  omega

theorem malloc (books : Accounted h) (done : Crunchy.malloc env n h = some (p, h'))
    (noWrap : HeapNote.wrapped ∉ h'.notes) : Accounted h' := by
  cases malloc_outcome done with
  | zero => exact books
  | reuse => exact books.withChain (sizes_set (blockSize_markUsed _))
  | refused => exact (books.withNotes (.refused :: h.notes)).withChain rfl
  | new positive best room growth noted =>
    obtain ⟨_, fits⟩ := noted.quiet noWrap
    obtain ⟨aligned, above, high, _⟩ := topAfter_spec books fits growth
    exact books.append fits.1 (toNat_size_of_fits books fits.1) aligned
      (Nat.le_trans books.low above) high

theorem free (books : Accounted h) (done : Crunchy.free ptr h = some (r, h')) : Accounted h' := by
  rw [free_eq books.unlocked] at done
  cases done
  exact books.withChain (sizes_freedChain ptr h)

theorem printf (books : Accounted h) (done : Crunchy.printf env h = some h')
    (noWrap : HeapNote.wrapped ∉ h'.notes) : Accounted h' := by
  obtain ⟨buf, mid, allocated, rfl⟩ := printf_outcome done
  have written := (books.malloc allocated noWrap).withWorld (env.formatInto buf mid.world)
  exact written.withChain (sizes_freedChain buf mid)

theorem sbrk (books : Accounted h) (done : Crunchy.sbrk env (Crunchy.printf env) m h = some (r, h'))
    (noWrap : HeapNote.wrapped ∉ h'.notes) : Accounted h' := by
  rcases sbrk_outcome done with ⟨top, notes, growth, noted, rfl⟩ | printed
  · obtain ⟨_, fits⟩ := noted.quiet noWrap
    obtain ⟨aligned, high, above, _⟩ := brk_spec growth fits books.aligned books.high
    exact ⟨books.last, aligned, Nat.le_trans books.low above, high, books.unlocked⟩
  · exact (books.withNotes _).printf printed noWrap

end Accounted

/-! ### Padding to a page boundary -/

/-- What `malloc_a` appends before its own block. -/
inductive Padded (h : Heap W) : Heap W → Prop where
  | onPage (aligned : h.kLastAlloc.toNat % 0x1000 = 0) : Padded h h
  | pad {w base : U32} (off : h.kLastAlloc.toNat % 0x1000 ≠ 0)
      (isBase : base.toNat = (h.kLastAlloc.toNat / 0x1000 + 1) * 0x1000)
      (size : (blockSize w).toNat = base.toNat - h.kLastAlloc.toNat)
      (unused : blockUsed w = 0#32) :
      Padded h { h with chain := h.chain ++ [w], kLastAlloc := base, memlock := false }

theorem Padded.accounted {mid : Heap W} (books : Accounted h) (padded : Padded h mid) :
    Accounted mid := by
  have last := books.last
  cases padded with
  | onPage => exact books
  | @pad w base off isBase size =>
    refine ⟨?_, books.aligned, books.low, books.high, rfl⟩
    change base.toNat = _
    rw [sum_sizes_snoc, size]
    omega

/-- The last block of a chain starts where the others end, and `find_block` finds
it there. -/
theorem last_block {front : List U32} (books : Accounted h) (isLast : h.chain = front ++ [w])
    (positive : 0 < (blockSize w).toNat)
    (address : ptr.toNat = kHeapBottom.toNat + (sizes front).sum) :
    kHeapBottom + sizeBefore h.chain front.length = ptr ∧
      freedChain ptr h = front ++ [markFree w] := by
  have last := books.last
  have atEnd : offset (sizes h.chain) front.length = (sizes front).sum := by
    rw [isLast, sizes_append, offset_append (by simp), ← length_sizes, offset_length]
  have inside : front.length < (sizes h.chain).length := by
    rw [length_sizes, isLast]
    simp
  have word : chainWord h.chain front.length = w := by
    rw [chainWord, isLast]
    simp
  have covers : Covers (sizes h.chain) front.length (sizes front).sum := by
    rw [← atEnd]
    apply covers_offset inside
    rw [getElem_sizes inside, word]
    exact positive
  constructor
  · apply eq_of_toNat_eq
    rw [toNat_add, toNat_sizeBefore (by omega), atEnd, address, Nat.mod_eq_of_lt (by omega)]
  · rw [freedChain, findBlock_of_covers last covers address]
    simp only [word]
    rw [isLast]
    simp

/-- `base` and `diff` as numbers. -/
theorem toNat_pageBase {last : U32}
    (fits : (last &&& ~~~0xFFF#32).toNat + (0x1000#32).toNat < 2 ^ 32) :
    (pageBase last).toNat = (last.toNat / 0x1000 + 1) * 0x1000 ∧
      (pageDiff last).toNat = 0x1000 - last.toNat % 0x1000 := by
  have base : (pageBase last).toNat = (last.toNat / 0x1000 + 1) * 0x1000 := by
    rw [pageBase, toNat_add, Nat.mod_eq_of_lt fits, toNat_and_not_fff, toNat_ofNat]
    omega
  refine ⟨base, ?_⟩
  rw [pageDiff, toNat_sub, base]
  omega

theorem pageDiff_eq_page_iff {last : U32}
    (fits : (last &&& ~~~0xFFF#32).toNat + (0x1000#32).toNat < 2 ^ 32) :
    pageDiff last = 0x1000#32 ↔ last.toNat % 0x1000 = 0 := by
  obtain ⟨_, diff⟩ := toNat_pageBase fits
  rw [← toNat_inj, diff, toNat_ofNat]
  omega

/-- The padding keeps the books, and is translated and freed at the old end of the
heap. -/
theorem withPad_spec (env : HeapEnv W) (books : Accounted h)
    (fits : (h.kLastAlloc &&& ~~~0xFFF#32).toNat + (0x1000#32).toNat < 2 ^ 32) :
    translate (printf env) h.chain.length (withPad h) = some (h.kLastAlloc, withPad h) ∧
      freedChain h.kLastAlloc (withPad h) =
        h.chain ++ [markFree (markUsed (blockSize (pageDiff h.kLastAlloc)))] ∧
      (withPad h).kLastAlloc.toNat = (h.kLastAlloc.toNat / 0x1000 + 1) * 0x1000 ∧
      (blockSize (pageDiff h.kLastAlloc)).toNat = 0x1000 - h.kLastAlloc.toNat % 0x1000 := by
  obtain ⟨base, diff⟩ := toNat_pageBase fits
  have last := books.last
  have size : (blockSize (pageDiff h.kLastAlloc)).toNat =
      0x1000 - h.kLastAlloc.toNat % 0x1000 := by
    rw [toNat_blockSize, diff]
    omega
  have moved : (withPad h).kLastAlloc.toNat = (h.kLastAlloc.toNat / 0x1000 + 1) * 0x1000 := by
    have cancel : h.kLastAlloc + pageDiff h.kLastAlloc = pageBase h.kLastAlloc := by
      rw [pageDiff, add_comm, sub_add_cancel]
    rw [withPad, cancel, base]
  have padBooks : Accounted (withPad h) := by
    refine ⟨?_, books.aligned, books.low, books.high, books.unlocked⟩
    rw [moved, withPad, sum_sizes_snoc, blockSize_markUsed, blockSize_blockSize, size]
    omega
  obtain ⟨address, freed⟩ := last_block padBooks rfl (by
    rw [blockSize_markUsed, blockSize_blockSize, size]
    omega) last
  refine ⟨?_, freed, moved, size⟩
  have known : ¬ (withPad h).chain.length < h.chain.length := by
    simp [withPad]
  have low : ¬ (withPad h).kLastAlloc < h.kLastAlloc := by
    rw [lt_def, moved]
    omega
  simp only [translate]
  rw [if_neg known, address, if_neg low]

theorem padToPage_outcome {r : Bool} (books : Accounted h) (done : padToPage env h = some (r, h'))
    (noWrap : HeapNote.wrapped ∉ h'.notes) :
    (r = false ∧ h' = { h with notes := .refused :: h.notes }) ∨ (r = true ∧ Padded h h') := by
  have noted := noted_padNotes h
  rcases padToPage_cases done with ⟨onPage, isTrue, rfl⟩ | ⟨_, isFalse, rfl⟩ |
    ⟨off, isTrue, ptr, mid, q, translated, freed⟩
  · obtain ⟨same, fits⟩ := noted.quiet noWrap
    have aligned := (pageDiff_eq_page_iff fits).mp onPage
    rw [same]
    exact Or.inr ⟨isTrue, .onPage aligned⟩
  · obtain ⟨same, _⟩ := noted.quiet fun member => noWrap (mem_cons_of_mem _ member)
    rw [same]
    exact Or.inl ⟨isFalse, rfl⟩
  · have changes := (Changes.translate translated).trans (Changes.free freed)
    obtain ⟨same, fits⟩ := noted.quiet (Changes.quiet changes noWrap)
    obtain ⟨address, marked, moved, size⟩ := withPad_spec env books fits
    rw [address] at translated
    cases translated
    rw [free_eq (h := withPad h) books.unlocked, marked] at freed
    cases freed
    have offPage : h.kLastAlloc.toNat % 0x1000 ≠ 0 := fun aligned =>
      off ((pageDiff_eq_page_iff fits).mpr aligned)
    have unchanged : (withPad h).notes = h.notes := same
    refine Or.inr ⟨isTrue, ?_⟩
    rw [unchanged]
    refine .pad offPage moved ?_ (blockUsed_markFree _)
    rw [blockSize_markFree, blockSize_markUsed, blockSize_blockSize, size, moved]
    omega

/-- The ways `malloc_a(n)` can return: refused, with the padding perhaps made, or
with its block after the padding. -/
theorem mallocA_outcome (books : Accounted h) (done : mallocA env n h = some (p, h'))
    (noWrap : HeapNote.wrapped ∉ h'.notes) :
    (p = null ∧ ∃ mid, (mid = h ∨ Padded h mid) ∧
      h' = { mid with notes := .refused :: mid.notes }) ∨
    ∃ mid, Padded h mid ∧ p = mid.kLastAlloc ∧ mid.kLastAlloc.toNat + n.toNat < 2 ^ 32 ∧
      (h' = withBlock n mid ∧ (withBlock n mid).kLastAlloc < mid.kHeapTop ∨
      mid.kHeapTop ≤ (withBlock n mid).kLastAlloc ∧ ∃ q, sbrk env (printf env)
        (((withBlock n mid).kLastAlloc - mid.kHeapTop) + 0x1000#32) (withBlock n mid) =
          some (q, h')) := by
  obtain ⟨r, mid, padded, ⟨rfl, isNull, rfl⟩ | ⟨rfl, isNull, rfl⟩ | ⟨rfl, isLast, grown⟩⟩ :=
    mallocA_cases done
  · rcases padToPage_outcome books padded noWrap with ⟨_, rfl⟩ | ⟨isTrue, _⟩
    · exact Or.inl ⟨isNull, h, Or.inl rfl, rfl⟩
    · cases isTrue
  · rcases padToPage_outcome books padded fun member => noWrap (mem_cons_of_mem _ member) with
      ⟨isFalse, _⟩ | ⟨_, isPadded⟩
    · cases isFalse
    · exact Or.inl ⟨isNull, mid, Or.inr isPadded, rfl⟩
  · have changes : Changes env (withBlock n mid) h' := by
      rcases grown with ⟨rfl, _⟩ | ⟨_, q, grown⟩
      · exact .refl
      · exact .sbrk grown
    have noted := noted_sumNotes mid.kLastAlloc n mid.notes
    obtain ⟨_, fits⟩ := noted.quiet (changes.quiet noWrap)
    rcases padToPage_outcome books padded
      (Changes.quiet ((Changes.withBlock n mid).trans changes) noWrap) with ⟨isFalse, _⟩ | ⟨_, isPadded⟩
    · cases isFalse
    · exact Or.inr ⟨mid, isPadded, isLast, fits, grown⟩

namespace Accounted

variable {h h' : Heap W}

/-- The block `malloc_a` appends after the padding. -/
theorem withBlock (books : Accounted h) (fits : h.kLastAlloc.toNat + n.toNat < 2 ^ 32) :
    Accounted (Crunchy.withBlock n h) := by
  have appended : Accounted { Crunchy.withBlock n h with memlock := false } :=
    books.append fits (toNat_size_of_fits books fits) books.aligned books.low books.high
  exact ⟨appended.last, appended.aligned, appended.low, appended.high, books.unlocked⟩

theorem mallocA (books : Accounted h) (done : Crunchy.mallocA env n h = some (p, h'))
    (noWrap : HeapNote.wrapped ∉ h'.notes) : Accounted h' := by
  rcases mallocA_outcome books done noWrap with ⟨_, mid, rfl | isPadded, rfl⟩ |
    ⟨mid, isPadded, _, fits, ⟨rfl, _⟩ | ⟨_, q, grown⟩⟩
  · exact books.withNotes _
  · exact (isPadded.accounted books).withNotes _
  · exact (isPadded.accounted books).withBlock fits
  · exact ((isPadded.accounted books).withBlock fits).sbrk grown noWrap

theorem realloc (books : Accounted h) (done : Crunchy.realloc env ptr n h = some (p, h'))
    (noWrap : HeapNote.wrapped ∉ h'.notes) : Accounted h' := by
  obtain ⟨new, mid, world, allocated, printed, _⟩ := realloc_cases done
  have middle := books.malloc allocated ((Changes.printf printed).quiet noWrap)
  exact ((middle.withWorld world).withChain (sizes_freedChain ptr mid)).printf printed noWrap

end Accounted

/-! ### Runs -/

/-- The heap and its live allocations: address and requested size of each pointer
returned and not freed since. -/
structure HeapRun (W : Type) where
  heap : Heap W
  live : List (U32 × U32)

/-- The calls of a run. -/
inductive HeapCall where
  | malloc (n : U32)
  | mallocA (n : U32)
  | realloc (ptr n : U32)
  | free (ptr : U32)

/-- `ptr` is returned for `n` bytes; `NULL` is no allocation. -/
def addLive (ptr n : U32) (live : List (U32 × U32)) : List (U32 × U32) :=
  if ptr = null then live else (ptr, n) :: live

/-- `ptr` is given back. -/
def dropLive (ptr : U32) (live : List (U32 × U32)) : List (U32 × U32) :=
  live.filter fun block => block.1 ≠ ptr

/-- One call that returns. -/
inductive HeapStep (env : HeapEnv W) : HeapRun W → HeapCall → HeapRun W → Prop where
  | malloc {run : HeapRun W} {n p : U32} {heap : Heap W}
      (done : Crunchy.malloc env n run.heap = some (p, heap)) :
      HeapStep env run (.malloc n) { heap, live := addLive p n run.live }
  | mallocA {run : HeapRun W} {n p : U32} {heap : Heap W}
      (done : Crunchy.mallocA env n run.heap = some (p, heap)) :
      HeapStep env run (.mallocA n) { heap, live := addLive p n run.live }
  | realloc {run : HeapRun W} {ptr n p : U32} {heap : Heap W}
      (done : Crunchy.realloc env ptr n run.heap = some (p, heap)) :
      HeapStep env run (.realloc ptr n)
        { heap, live := addLive p n (dropLive ptr run.live) }
  | free {run : HeapRun W} {ptr r : U32} {heap : Heap W}
      (done : Crunchy.free ptr run.heap = some (r, heap)) :
      HeapStep env run (.free ptr) { heap, live := dropLive ptr run.live }

/-- Runs of heap calls from `k_heap_init`, with any arguments. -/
def heapSystem (env : HeapEnv W) : System (HeapRun W) HeapCall where
  Start run := (∃ world, kHeapInit env world = some run.heap) ∧ run.live = []
  Step := HeapStep env

/-- No 32-bit address sum has wrapped so far. -/
def NoWrap (run : HeapRun W) : Prop := HeapNote.wrapped ∉ run.heap.notes

/-- The heap after `k_heap_init`. -/
def freshHeap (env : HeapEnv W) (world : W) : Heap W where
  chain := []
  kHeapTop := 0xC0310000#32
  kLastAlloc := kHeapBottom
  memlock := false
  notes := []
  world := env.backTo kHeapBottom 0xC0310000#32 world

theorem kHeapInit_eq (env : HeapEnv W) (world : W) :
    kHeapInit env world = some (freshHeap env world) := by
  have pages : brk 0x10000#32 kHeapBottom = some 0xC0310000#32 := by decide
  obtain ⟨_, notes, equation, noted⟩ := sbrk_eq_some env (printf env)
    (h := { chain := [], kHeapTop := kHeapBottom, kLastAlloc := kHeapBottom, memlock := false,
            notes := [], world }) pages
  have fits : (0x10000#32).toNat + kHeapBottom.toNat < 2 ^ 32 := by decide
  rw [kHeapInit, equation, noted.same (Or.inr fits)]
  rfl

theorem eq_freshHeap (init : kHeapInit env world = some h) : h = freshHeap env world :=
  (Option.some.inj ((kHeapInit_eq env world).symm.trans init)).symm

theorem Accounted.fresh (env : HeapEnv W) (world : W) : Accounted (freshHeap env world) :=
  ⟨rfl, show (0xC0310000#32).toNat % 0x1000 = 0 by decide,
    show kHeapBottom.toNat ≤ (0xC0310000#32).toNat by decide,
    show (0xC0310000#32).toNat ≤ kHeapMax.toNat by decide, rfl⟩

/-- As long as no address sum wraps, every run keeps the books. -/
theorem Accounted.of_reachable {run : HeapRun W}
    (reached : ((heapSystem env).within NoWrap).Reachable run) : Accounted run.heap := by
  refine reached.invariant (fun run => Accounted run.heap) ?_ ?_
  · rintro run ⟨⟨⟨world, init⟩, _⟩, _⟩
    rw [eq_freshHeap init]
    exact Accounted.fresh env world
  · rintro before event after books ⟨taken, noWrap⟩
    cases taken with
    | malloc done => exact books.malloc done noWrap
    | mallocA done => exact books.mallocA done noWrap
    | realloc done => exact books.realloc done noWrap
    | free done => exact books.free done

/-! ### `malloc` at the heap limit -/

/-- What `malloc(n)` owes its caller: `NULL` and an unchanged heap, or `n` bytes
inside the heap and a top within the limit. In particular it returns. -/
def MallocSafe (env : HeapEnv W) (n : U32) (h : Heap W) : Prop :=
  ∃ p h', malloc env n h = some (p, h') ∧
    ((p = null ∧ h'.kLastAlloc = h.kLastAlloc ∧ h'.kHeapTop = h.kHeapTop ∧ h'.chain = h.chain) ∨
    (kHeapBottom.toNat ≤ p.toNat ∧ p.toNat + n.toNat ≤ h'.kHeapTop.toNat ∧
      h'.kHeapTop.toNat ≤ kHeapMax.toNat))

/-- The requests the code is right for: a free block that ends below the top, a
full chain, or a new block for which the doubled shortfall stays below the limit,
all sums taken without wrap-around. -/
def MallocRoom (n : U32) (h : Heap W) : Prop :=
  n = 0#32 ∨
  (∃ i, findBestFree n h.chain = some (some i) ∧
    kHeapBottom.toNat + offset (sizes h.chain) i + n.toNat ≤ h.kHeapTop.toNat) ∨
  (findBestFree n h.chain = some none ∧
    (maxBlocks < h.chain.length ∨
    h.kLastAlloc.toNat + n.toNat ≤ h.kHeapTop.toNat ∨
    h.kHeapTop.toNat + 2 * (h.kLastAlloc.toNat + n.toNat - h.kHeapTop.toNat) < kHeapMax.toNat))

section Limit

variable {n : U32} {h : Heap W}

/-- Taking a free block is safe exactly when the block ends below the top. -/
theorem safe_reuse_iff (books : Accounted h) (positive : n ≠ 0#32)
    (found : findBestFree n h.chain = some (some i)) (inside : i < h.chain.length) :
    MallocSafe env n h ↔
      kHeapBottom.toNat + offset (sizes h.chain) i + n.toNat ≤ h.kHeapTop.toNat := by
  have last := books.last
  have below : offset (sizes h.chain) i ≤ (sizes h.chain).sum := by
    rw [← offset_length, length_sizes]
    exact offset_mono (Nat.le_of_lt inside)
  have address := toNat_translate books (Nat.le_of_lt inside)
  have low : ¬ h.kLastAlloc < kHeapBottom + sizeBefore h.chain i := by
    rw [lt_def, address]
    omega
  have returns := malloc_reuse env positive books.unlocked found inside
  rw [if_neg low] at returns
  constructor
  · rintro ⟨p, h', done, isNull | ⟨_, inHeap, _⟩⟩
    · rw [returns] at done
      cases done
      have value := congrArg BitVec.toNat isNull.1
      rw [address, toNat_kHeapBottom, null, toNat_ofNat] at value
      omega
    · rw [returns] at done
      cases done
      rw [address] at inHeap
      exact inHeap
  · intro inHeap
    refine ⟨_, _, returns, Or.inr ⟨?_, ?_, books.high⟩⟩
    · rw [address]
      omega
    · rw [address]
      exact inHeap

/-- The top reached for a new block covers it and respects the limit exactly when
the doubled shortfall stays below the limit. -/
theorem topAfter_safe_iff (books : Accounted h) :
    (∃ top, topAfter n h = some top ∧ h.kLastAlloc.toNat + n.toNat ≤ top.toNat ∧
      top.toNat ≤ kHeapMax.toNat) ↔
    (h.kLastAlloc.toNat + n.toNat ≤ h.kHeapTop.toNat ∨
      h.kHeapTop.toNat + 2 * (h.kLastAlloc.toNat + n.toNat - h.kHeapTop.toNat) <
        kHeapMax.toNat) := by
  have last := books.last
  have low := books.low
  have high := books.high
  have aligned := books.aligned
  rw [toNat_kHeapMax] at high ⊢
  by_cases sum : h.kLastAlloc.toNat + n.toNat < 2 ^ 32
  · rw [topAfter]
    split
    · rename_i reaches
      obtain ⟨short, shortfall⟩ := toNat_shortfall books sum reaches
      generalize 2#32 * ((n + h.kLastAlloc) - h.kHeapTop) = m at shortfall ⊢
      have bound := m.isLt
      rw [brk]
      split
      · -- the block ends exactly at the top
        rename_i isZero
        rw [isZero, toNat_ofNat] at shortfall
        exact ⟨fun _ => Or.inl (by omega), fun _ => ⟨_, rfl, by omega, high⟩⟩
      · rename_i positive
        have nonzero : m.toNat ≠ 0 := fun zero => positive (eq_of_toNat_eq zero)
        split
        · rename_i above
          rw [le_def, toNat_add, toNat_kHeapMax] at above
          constructor
          · rintro ⟨_, impossible, _⟩
            cases impossible
          · omega
        · -- past the limit the sum has wrapped, and so does the top
          rename_i below
          rw [le_def, toNat_add, toNat_kHeapMax] at below
          have grown := toNat_grown m h.kHeapTop
          constructor
          · rintro ⟨top, isTop, covered, _⟩
            cases isTop
            omega
          · intro room
            exact ⟨_, rfl, by omega, by omega⟩
    · rename_i below
      rw [le_def, toNat_add, Nat.mod_eq_of_lt sum] at below
      constructor
      · intro _
        exact Or.inl (by omega)
      · intro _
        exact ⟨_, rfl, by omega, high⟩
  · constructor
    · rintro ⟨top, _, covered, _⟩
      have bound := top.isLt
      omega
    · have bound := h.kHeapTop.isLt
      omega

/-- Making a new block is safe exactly when the sums stay below the limit. -/
theorem safe_new_iff (books : Accounted h) (positive : n ≠ 0#32)
    (noFit : findBestFree n h.chain = some none) (room : h.chain.length ≤ maxBlocks) :
    MallocSafe env n h ↔
      (h.kLastAlloc.toNat + n.toNat ≤ h.kHeapTop.toNat ∨
        h.kHeapTop.toNat + 2 * (h.kLastAlloc.toNat + n.toNat - h.kHeapTop.toNat) <
          kHeapMax.toNat) := by
  have last := books.last
  rw [← topAfter_safe_iff books]
  cases growth : topAfter n h with
  | none =>
    constructor
    · rintro ⟨p, h', done, _⟩
      rw [malloc_hangs env positive books.unlocked noFit room growth] at done
      cases done
    · rintro ⟨_, impossible, _⟩
      cases impossible
  | some top =>
    obtain ⟨notes, returns, _⟩ :=
      malloc_new env positive books.unlocked noFit room growth
    constructor
    · rintro ⟨p, h', done, isNull | ⟨_, inHeap, high⟩⟩
      · rw [returns] at done
        cases done
        have value := congrArg BitVec.toNat isNull.1
        rw [last, toNat_kHeapBottom, null, toNat_ofNat] at value
        omega
      · rw [returns] at done
        cases done
        exact ⟨top, rfl, inHeap, high⟩
    · rintro ⟨_, isTop, covered, high⟩
      cases isTop
      refine ⟨_, _, returns, Or.inr ⟨?_, covered, high⟩⟩
      rw [last]
      exact Nat.le_add_right _ _

end Limit

/-- In every state a run reaches without wrapping an address sum, `malloc(n)` is
safe exactly for the requests of `MallocRoom`. -/
theorem malloc_safe_iff {run : HeapRun W}
    (reached : ((heapSystem env).within NoWrap).Reachable run) (n : U32) :
    MallocSafe env n run.heap ↔ MallocRoom n run.heap := by
  have books := Accounted.of_reachable reached
  rw [MallocRoom]
  by_cases isZero : n = 0#32
  · subst isZero
    have safe : MallocSafe env 0#32 run.heap :=
      ⟨null, run.heap, malloc_zero env run.heap, Or.inl ⟨rfl, rfl, rfl, rfl⟩⟩
    exact ⟨fun _ => Or.inl rfl, fun _ => safe⟩
  · obtain ⟨found, search, best⟩ := findBestFree_spec isZero run.heap.chain
    cases found with
    | some i =>
      rw [safe_reuse_iff books isZero search best.1]
      simp [isZero, search]
    | none =>
      by_cases full : maxBlocks < run.heap.chain.length
      · have safe : MallocSafe env n run.heap :=
          ⟨null, _, malloc_refused env isZero books.unlocked search full,
            Or.inl ⟨rfl, rfl, rfl, rfl⟩⟩
        exact ⟨fun _ => Or.inr (Or.inr ⟨search, Or.inl full⟩), fun _ => safe⟩
      · rw [safe_new_iff books isZero search (Nat.le_of_not_lt full)]
        simp [isZero, search, full]

/-! ### Two requests to a fresh heap -/

/-- A machine that records nothing. -/
def bareEnv : HeapEnv Unit where
  mapHeapPage _ world := world
  memcpy _ _ _ world := world
  formatInto _ world := world

/-- The heap right after `k_heap_init`. -/
theorem reachable_fresh (env : HeapEnv W) (world : W) :
    ∃ h : Heap W, ((heapSystem env).within NoWrap).Reachable { heap := h, live := [] } ∧
      (heapSystem env).Reachable { heap := h, live := [] } ∧
      h.chain = [] ∧ h.kLastAlloc = kHeapBottom ∧ h.kHeapTop = 0xC0310000#32 := by
  have init := kHeapInit_eq env world
  exact ⟨_, .start ⟨⟨⟨world, init⟩, rfl⟩, not_mem_nil⟩, .start ⟨⟨world, init⟩, rfl⟩, rfl, rfl, rfl⟩

/-- Sixteen bytes of a fresh heap. -/
theorem small_request_safe :
    ∃ run : HeapRun Unit, ((heapSystem bareEnv).within NoWrap).Reachable run ∧
      MallocSafe bareEnv 16#32 run.heap := by
  obtain ⟨h, reached, _, empty, last, top⟩ := reachable_fresh bareEnv ()
  refine ⟨_, reached, (malloc_safe_iff reached 16#32).mpr (Or.inr (Or.inr ⟨?_, ?_⟩))⟩
  · rw [empty]
    decide
  · rw [last, top]
    exact Or.inr (Or.inl (by decide))

/-- The largest request to a fresh heap: `K_LAST_ALLOC + n` wraps to just below the
bottom, the top looks high enough, and the bottom of the heap is returned for four
gigabytes. -/
theorem huge_request_overruns :
    ¬ ∀ run : HeapRun Unit, (heapSystem bareEnv).Reachable run →
      ∀ n, MallocSafe bareEnv n run.heap := by
  intro safe
  obtain ⟨h, reached, anyRun, empty, last, top⟩ := reachable_fresh bareEnv ()
  have books : Accounted h := Accounted.of_reachable reached
  have noFit : findBestFree 0xFFFFFFFF#32 h.chain = some none := by
    rw [empty]
    decide
  have room := (safe_new_iff books (by decide) noFit (by simp [empty])).mp
    (safe _ anyRun 0xFFFFFFFF#32)
  rw [last, top] at room
  exact absurd room (by decide)

end Crunchy
