/-
Module: Crunchy.Proofs.HeapRealloc
Purpose: What `realloc` does to the bytes of the heap. The copy is right; the exact condition is
  given under which the report that follows leaves the live blocks alone.
Trusted boundary: none
Main exports: ByteView, BlockByte, Served, AtReport, KeepsData, ReportHarmless,
  realloc_keeps_data_iff
-/
import Crunchy.Proofs.HeapErrors
import Crunchy.Strings

namespace Crunchy

open Lib List Option

variable {W : Type} {env : HeapEnv W}

variable {h : Heap W} {chain : List U32} {i j t x : Nat} {n p q : U32}

/-! ### Bytes -/

/-- The bytes of the machine by address, and what the heap does to its own: backing a page
leaves those below the page alone, `memcpy` is the loop of `string.c`, and a report stays
inside its buffer. -/
structure ByteView (env : HeapEnv W) where
  bytes : W → Bytes
  mapHeapPage : ∀ (a : U32) (w : W) (x : Nat), kHeapBottom.toNat ≤ x → x < a.toNat →
    bytes (env.mapHeapPage a w) x = bytes w x
  memcpy : ∀ (dest src n : U32) (w : W), dest.toNat + n.toNat ≤ 2 ^ 32 →
    src.toNat + n.toNat ≤ 2 ^ 32 →
    bytes (env.memcpy dest src n w) = Crunchy.memcpy (bytes w) dest.toNat src.toNat n.toNat
  formatInto : ∀ (buf : U32) (w : W) (x : Nat), kHeapBottom.toNat ≤ x →
    x < buf.toNat ∨ buf.toNat + 256 ≤ x → bytes (env.formatInto buf w) x = bytes w x

/-- The byte at address `x` lies in block `j`. -/
def BlockByte (chain : List U32) (j x : Nat) : Prop :=
  kHeapBottom.toNat ≤ x ∧ Covers (sizes chain) j (x - kHeapBottom.toNat)

namespace BlockByte

variable {chain : List U32} {i j x : Nat}

theorem unique (one : BlockByte chain i x) (two : BlockByte chain j x) : i = j :=
  one.2.unique two.2

theorem lt_last (books : Accounted h) (has : BlockByte h.chain j x) :
    x < h.kLastAlloc.toNat := by
  obtain ⟨low, inside, _, stop⟩ := has
  have last := books.last
  have total := end_le_sum inside
  omega

/-- The bytes of a block, from its address on. -/
theorem at_offset (inside : j < chain.length) {p : Nat}
    (address : p = kHeapBottom.toNat + offset (sizes chain) j)
    (below : t < (blockSize (chainWord chain j)).toNat) : BlockByte chain j (p + t) := by
  have inSizes : j < (sizes chain).length := by
    rw [length_sizes]
    exact inside
  refine ⟨by omega, inSizes, by omega, ?_⟩
  rw [getElem_sizes inSizes]
  omega

/-- More blocks at the end, or other marks on the blocks, move no byte. -/
theorem of_sizes {chain' : List U32} {more : List Nat} (same : sizes chain' = sizes chain ++ more)
    (has : BlockByte chain j x) : BlockByte chain' j x := by
  obtain ⟨low, inside, start, stop⟩ := has
  refine ⟨low, ?_⟩
  rw [same]
  refine ⟨by rw [length_append]; omega, ?_, ?_⟩
  · rw [offset_append (Nat.le_of_lt inside)]
    exact start
  · rw [offset_append (Nat.le_of_lt inside), getElem_append_left inside]
    exact stop

end BlockByte

theorem Backs.blockByte (backs : Backs chain j p n)
    (below : t < (blockSize (chainWord chain j)).toNat) :
    BlockByte chain j (p.toNat + t) :=
  .at_offset backs.inside backs.address below

/-! ### The bytes under `malloc` -/

section Growth

variable {n : U32} {h h' : Heap W} {Seen : Type} (see : W → Seen)

/-- What the pages from a top on do not show, backing them keeps. -/
theorem backPages_keeps (k : Nat) (top : U32) (world : W)
    (fits : top.toNat + 0x1000 * k < 2 ^ 32)
    (keeps : ∀ (a : U32) (w : W), top.toNat ≤ a.toNat →
      a.toNat + 0x1000 ≤ top.toNat + 0x1000 * k → see (env.mapHeapPage a w) = see w) :
    see (env.backPages k top world) = see world := by
  induction k generalizing top world with
  | zero => rfl
  | succ k ih =>
    have next : (top + 0x1000#32).toNat = top.toNat + 0x1000 := by
      rw [BitVec.toNat_add, BitVec.toNat_ofNat]
      omega
    rw [HeapEnv.backPages, ih]
    · exact keeps _ _ (Nat.le_refl _) (by omega)
    · omega
    · exact fun a w low high => keeps a w (by omega) (by omega)

/-- `malloc` reaches the rest of the machine through the pages it backs between the top and
the limit. -/
theorem malloc_keeps (books : Accounted h) (done : malloc env n h = some (q, h'))
    (noWrap : HeapNote.wrapped ∉ h'.notes)
    (keeps : ∀ (a : U32) (w : W), h.kHeapTop.toNat ≤ a.toNat →
      a.toNat + 0x1000 ≤ kHeapMax.toNat → see (env.mapHeapPage a w) = see w) :
    see h'.world = see h.world := by
  cases malloc_outcome done with
  | zero => rfl
  | reuse => rfl
  | refused => rfl
  | @new top _ _ _ _ growth noted =>
    obtain ⟨_, above, bounded, _⟩ := topAfter_spec books (noted.quiet noWrap).2 growth
    have limit := toNat_kHeapMax
    have pages : 0x1000 * ((top - h.kHeapTop).toNat / 0x1000) ≤ top.toNat - h.kHeapTop.toNat := by
      rw [BitVec.toNat_sub_of_le above]
      exact Nat.mul_div_le _ _
    refine backPages_keeps see _ _ _ (by omega) fun a w low high => keeps a w low (by omega)

/-- `malloc` changes no byte below the top. -/
theorem malloc_bytes (view : ByteView env) (books : Accounted h)
    (done : malloc env n h = some (q, h')) (noWrap : HeapNote.wrapped ∉ h'.notes)
    (low : kHeapBottom.toNat ≤ x) (below : x < h.kHeapTop.toNat) :
    view.bytes h'.world x = view.bytes h.world x :=
  malloc_keeps (fun w => view.bytes w x) books done noWrap
    fun a w above _ => view.mapHeapPage a w x low (Nat.lt_of_lt_of_le below above)

end Growth

/-! ### The report -/

section Report

variable (view : ByteView env) {h : Heap W}

/-- What a report with a buffer leaves: the words of the chain, and the bytes of the
blocks in use. -/
structure Reported (h h' : Heap W) : Prop where
  words : ∀ j < h.chain.length, chainWord h'.chain j = chainWord h.chain j
  bytes : ∀ j x, blockUsed (chainWord h.chain j) ≠ 0#32 → BlockByte h.chain j x →
    view.bytes h'.world x = view.bytes h.world x

/-- The buffer is a free block. -/
theorem printf_found (books : Accounted h) {l : Nat}
    (search : findBestFree 256#32 h.chain = some (some l))
    (best : BestFit 256#32 (256#32 * 3#32) h.chain h.chain.length (some l)) :
    ∃ h', printf env h = some h' ∧ Reported view h h' := by
  refine ⟨_, printf_reuse env books search best, fun _ _ => rfl, fun j x used has => ?_⟩
  obtain ⟨inside, ⟨large, _, unused⟩, _⟩ := best
  have address := toNat_translate books (Nat.le_of_lt inside)
  have size : 256 ≤ (blockSize (chainWord h.chain l)).toNat := BitVec.le_def.mp large
  refine view.formatInto _ _ x has.1 ?_
  by_contra inBuffer
  -- a byte of the buffer is a byte of the free block, and of no other
  have start : (kHeapBottom + sizeBefore h.chain l).toNat +
      (x - (kHeapBottom + sizeBefore h.chain l).toNat) = x := by omega
  have inBlock : BlockByte h.chain l x := start ▸ BlockByte.at_offset inside address (by omega)
  rw [has.unique inBlock] at used
  exact used unused

/-- The sums for a buffer at the end of the heap fit. -/
theorem report_fits (books : Accounted h) (covered : h.kLastAlloc.toNat ≤ h.kHeapTop.toNat) :
    SumsFit 256#32 h := by
  have high := books.high
  rw [toNat_kHeapMax] at high
  have sum : h.kLastAlloc.toNat + (256#32).toNat < 2 ^ 32 := by
    rw [BitVec.toNat_ofNat]
    omega
  refine ⟨sum, fun reaches => Or.inr ?_⟩
  rw [(toNat_shortfall books sum reaches).2, BitVec.toNat_ofNat]
  omega

/-- There is room for a buffer exactly when it ends below the limit: the top is a page
boundary, and so is the limit. -/
theorem topAfter_report (books : Accounted h) (covered : h.kLastAlloc.toNat ≤ h.kHeapTop.toNat) :
    topAfter 256#32 h = none ↔ kHeapMax.toNat < h.kLastAlloc.toNat + 256 := by
  have high := books.high
  have aligned := books.aligned
  obtain ⟨sum, inner⟩ := report_fits books covered
  rw [topAfter]
  by_cases reaches : h.kHeapTop ≤ h.kLastAlloc + 256#32
  · obtain ⟨short, shortfall⟩ := toNat_shortfall books sum reaches
    rw [BitVec.toNat_ofNat] at short shortfall
    rw [if_pos reaches, brk]
    by_cases zero : 2#32 * ((256#32 + h.kLastAlloc) - h.kHeapTop) = 0#32
    · rw [if_pos zero]
      rw [zero, BitVec.toNat_ofNat] at shortfall
      simp only [reduceCtorEq, false_iff]
      omega
    · have positive : (2#32 * ((256#32 + h.kLastAlloc) - h.kHeapTop)).toNat ≠ 0 := fun none =>
        zero (BitVec.eq_of_toNat_eq none)
      have value : (2#32 * ((256#32 + h.kLastAlloc) - h.kHeapTop) + h.kHeapTop).toNat =
          2 * (h.kLastAlloc.toNat + 256 - h.kHeapTop.toNat) + h.kHeapTop.toNat := by
        rw [BitVec.toNat_add, shortfall]
        omega
      rw [if_neg zero, ite_eq_left_iff, BitVec.le_def, value, toNat_kHeapMax]
      simp only [reduceCtorEq, imp_false, not_not]
      omega
  · rw [if_neg reaches]
    rw [BitVec.le_def, BitVec.toNat_add, Nat.mod_eq_of_lt sum, BitVec.toNat_ofNat] at reaches
    simp only [reduceCtorEq, false_iff]
    omega

/-- The buffer is a new block at the end of the heap. -/
theorem printf_appends (books : Accounted h) (covered : h.kLastAlloc.toNat ≤ h.kHeapTop.toNat)
    (quiet : h.notes = []) (noFit : findBestFree 256#32 h.chain = some none)
    (room : h.chain.length ≤ maxBlocks)
    (below : h.kLastAlloc.toNat + 256 ≤ kHeapMax.toNat) :
    ∃ h', printf env h = some h' ∧ Reported view h h' := by
  have fits := report_fits books covered
  cases growth : topAfter 256#32 h with
  | none =>
    have above := (topAfter_report books covered).mp growth
    omega
  | some top =>
    obtain ⟨notes, allocated, noted⟩ :=
      malloc_new env (by decide) books.unlocked noFit room growth
    have noWrap : HeapNote.wrapped ∉ notes := by
      rw [noted.same fits, quiet]
      exact not_mem_nil
    have after := books.malloc allocated noWrap
    have freed := (last_block after rfl (by decide) books.last).2
    have printed : printf env h =
        some { chain := h.chain ++ [markFree (markUsed (blockSize 256#32))]
               kHeapTop := top
               kLastAlloc := h.kLastAlloc + 256#32
               memlock := false
               notes
               world := env.formatInto h.kLastAlloc (env.backTo h.kHeapTop top h.world) } := by
      rw [printf, printfWith, allocated]
      simp only [bind_eq_bind, bind_some]
      rw [free_eq rfl, ← freed]
      rfl
    refine ⟨_, printed, fun j inside => ?_, fun j x used has => ?_⟩
    · simp [chainWord, getElem?_append_left inside]
    · have inHeap := has.lt_last books
      exact (view.formatInto _ _ x has.1 (Or.inl inHeap)).trans
        (malloc_bytes view books allocated noWrap has.1 (by omega))

/-- At the limit the report does not come back. -/
theorem printf_hangs (books : Accounted h) (covered : h.kLastAlloc.toNat ≤ h.kHeapTop.toNat)
    (noFit : findBestFree 256#32 h.chain = some none) (room : h.chain.length ≤ maxBlocks)
    (above : kHeapMax.toNat < h.kLastAlloc.toNat + 256) : printf env h = none := by
  rw [printf, printfWith, malloc_hangs env (by decide) books.unlocked noFit room
    ((topAfter_report books covered).mpr above)]
  rfl

/-- On a full chain the report has no buffer, and frees the last block. -/
theorem printf_frees_last (books : Accounted h) (noFit : findBestFree 256#32 h.chain = some none)
    (full : maxBlocks < h.chain.length) :
    ∃ h', printf env h = some h' ∧
      h'.chain = h.chain.set (h.chain.length - 1)
        (markFree (chainWord h.chain (h.chain.length - 1))) ∧
      ∀ x, kHeapBottom.toNat ≤ x → view.bytes h'.world x = view.bytes h.world x := by
  have entries : h.chain ≠ [] := by
    rintro empty
    rw [empty] at full
    exact absurd full (by decide)
  have known : ¬ h.kLastAlloc < null := by
    exact Nat.not_lt_zero _
  refine ⟨_, printf_refused_eq env books.unlocked noFit full, ?_, fun x low => ?_⟩
  · rw [freedChain, findBlock_outside books entries (Or.inl (by decide)) known]
  · exact view.formatInto _ _ x low (Or.inr (Nat.le_trans (by decide) low))

end Report

/-! ### The block `realloc` asks for -/

section Allocation

variable {n q : U32} {h mid : Heap W} {a j : Nat}

/-- The free block that `malloc(n)` takes; `none` when it appends one. -/
def takenBlock (n : U32) (h : Heap W) : Option Nat := (findBestFree n h.chain).join

/-- The entries of the chain after `malloc(n)`. -/
def entriesAfter (n : U32) (h : Heap W) : Nat :=
  if (takenBlock n h).isSome then h.chain.length else h.chain.length + 1

/-- The end of the heap's blocks after `malloc(n)`. -/
def lastAfter (n : U32) (h : Heap W) : Nat :=
  if (takenBlock n h).isSome then h.kLastAlloc.toNat else h.kLastAlloc.toNat + n.toNat

/-- `malloc(n)` has given out block `a` of the chain. -/
structure Served (n q : U32) (a : Nat) (h mid : Heap W) : Prop where
  block : takenBlock n h = some a ∨ takenBlock n h = none ∧ a = h.chain.length
  unused : a < h.chain.length → blockUsed (chainWord h.chain a) = 0#32
  backs : Backs mid.chain a q n
  words : ∀ j < h.chain.length, j ≠ a → chainWord mid.chain j = chainWord h.chain j
  sizes : ∃ more, sizes mid.chain = sizes h.chain ++ more
  entries : mid.chain.length = entriesAfter n h
  last : mid.kLastAlloc.toNat = lastAfter n h

theorem Served.of_malloc (books : Accounted h) (positive : n ≠ 0#32)
    (done : malloc env n h = some (q, mid)) (noWrap : HeapNote.wrapped ∉ mid.notes)
    (given : q ≠ null) : ∃ a, Served n q a h mid := by
  obtain ⟨found, search, best⟩ := findBestFree_spec positive h.chain
  have taken : takenBlock n h = found := by
    rw [takenBlock, search]
    rfl
  cases found with
  | some a =>
    obtain ⟨inside, ⟨large, _, unused⟩, _⟩ := best
    rw [malloc_reuse env positive books.unlocked search inside,
      if_neg (reused_low books inside)] at done
    cases done
    refine ⟨a, Or.inl taken, fun _ => unused, Backs.reused books positive inside large,
      fun j _ other => ?_, ⟨[], ?_⟩, ?_, ?_⟩
    · exact (chainWord_set fun _ => inside).trans (if_neg other)
    · exact (sizes_set (blockSize_markUsed _)).trans (append_nil _).symm
    · simp [entriesAfter, taken]
    · simp [lastAfter, taken]
  | none =>
    cases malloc_outcome done with
    | zero isZero => exact absurd isZero positive
    | reuse _ other => exact absurd other.2.1 (best _ other.1)
    | refused => exact absurd rfl given
    | new _ _ room growth noted =>
      obtain ⟨_, fits⟩ := noted.quiet noWrap
      have size := toNat_size_of_fits books fits.1
      refine ⟨h.chain.length, Or.inr ⟨taken, rfl⟩,
        fun inside => absurd inside (Nat.lt_irrefl _),
        Backs.appended books (blockUsed_markUsed _) positive size, fun j inside _ => ?_,
        ⟨_, sizes_append _ _⟩, ?_, ?_⟩
      · simp [chainWord, getElem?_append_left inside]
      · simp [entriesAfter, taken]
      · simp only [lastAfter, taken, isSome_none, Bool.false_eq_true, if_false]
        rw [BitVec.toNat_add, Nat.mod_eq_of_lt fits.1]

namespace Served

variable {r k : U32}

/-- A block that was in use is another one, and has not changed. -/
theorem ne_of_used (served : Served n q a h mid) (inside : j < h.chain.length)
    (used : blockUsed (chainWord h.chain j) ≠ 0#32) : j ≠ a := by
  rintro rfl
  exact used (served.unused inside)

theorem word (served : Served n q a h mid) (backs : Backs h.chain j r k) :
    chainWord mid.chain j = chainWord h.chain j :=
  served.words j backs.inside (served.ne_of_used backs.inside backs.used)

theorem keeps (served : Served n q a h mid) (backs : Backs h.chain j r k) :
    Backs mid.chain j r k := by
  obtain ⟨more, longer⟩ := served.sizes
  have word := served.word backs
  have inside : j < mid.chain.length := by
    have total := congrArg List.length longer
    rw [length_sizes, length_append, length_sizes] at total
    exact Nat.lt_of_lt_of_le backs.inside (by omega)
  refine ⟨inside, ?_, ?_, backs.requested, ?_⟩
  · rw [word]
    exact backs.used
  · rw [longer, offset_append (by rw [length_sizes]; exact Nat.le_of_lt backs.inside)]
    exact backs.address
  · rw [word]
    exact backs.fits

/-- The chain has the old blocks and the new one. -/
theorem inside_iff (served : Served n q a h mid) :
    j < mid.chain.length ↔ j < h.chain.length ∨ j = a := by
  have inside := served.backs.inside
  have entries := served.entries
  rcases served.block with taken | ⟨taken, isLast⟩
  · simp only [entriesAfter, taken, isSome_some, if_true] at entries
    omega
  · simp only [entriesAfter, taken, isSome_none, Bool.false_eq_true, if_false] at entries
    omega

theorem left_iff (served : Served n q a h mid) (inside : j < h.chain.length) :
    takenBlock n h ≠ some j ↔ j ≠ a := by
  rcases served.block with taken | ⟨taken, isLast⟩
  · rw [taken, ne_eq, Option.some.injEq, eq_comm]
  · rw [taken]
    simp only [ne_eq, reduceCtorEq, not_false_eq_true, true_iff]
    omega

end Served

end Allocation

/-! ### The copy -/

/-- The whole block. -/
theorem Backs.whole (backs : Backs chain i p n) :
    Backs chain i p (blockSize (chainWord chain i)) :=
  ⟨backs.inside, backs.used, backs.address, backs.bytes, Nat.le_refl _⟩

/-- The heap when `realloc` reports: block `i` of `ptr` is free and its bytes are in the
block at `q`. -/
def copiedHeap (env : HeapEnv W) (ptr n q : U32) (i : Nat) (mid : Heap W) : Heap W :=
  let bv := chainWord mid.chain i
  { mid with
    chain := mid.chain.set i (markFree bv)
    world := env.memcpy q ptr (if n ≤ markFree bv then n else markFree bv) mid.world }

theorem realloc_eq {ptr : U32} {mid : Heap W} (done : malloc env n h = some (q, mid))
    (found : findBlock ptr mid = .entry i) :
    realloc env ptr n h =
      (printf env (copiedHeap env ptr n q i mid)).bind fun h' => some (q, h') := by
  rw [realloc, done]
  simp only [bind_eq_bind, bind_some, found]
  rfl

section Copy

variable (view : ByteView env) {ptr n q m : U32} {i a : Nat} {mid : Heap W}
  (books : Accounted mid) (old : Backs mid.chain i ptr m) (new : Backs mid.chain a q n)

include books

theorem accounted_copiedHeap : Accounted (copiedHeap env ptr n q i mid) :=
  ⟨books.last.trans (by rw [copiedHeap, sizes_set (blockSize_markFree _)]), books.aligned,
    books.low, books.high, books.unlocked⟩

include old new

/-- The copy is `memcpy` of the smaller size. -/
theorem bytes_copiedHeap :
    view.bytes (copiedHeap env ptr n q i mid).world =
      memcpy (view.bytes mid.world) q.toNat ptr.toNat
        (min n.toNat (blockSize (chainWord mid.chain i)).toNat) := by
  have last := books.last
  have oldEnd := old.whole.end_le
  have newEnd := new.end_le
  have isSize : markFree (chainWord mid.chain i) = blockSize (chainWord mid.chain i) := rfl
  have length : (if n ≤ markFree (chainWord mid.chain i) then n
      else markFree (chainWord mid.chain i)).toNat =
      min n.toNat (blockSize (chainWord mid.chain i)).toNat := by
    rw [isSize]
    split
    · rename_i small
      rw [BitVec.le_def] at small
      omega
    · rename_i large
      rw [BitVec.le_def] at large
      omega
  rw [copiedHeap, view.memcpy _ _ _ _ (by rw [length]; omega) (by rw [length]; omega), length]

theorem copied_inside (differ : i ≠ a)
    (below : t < min n.toNat (blockSize (chainWord mid.chain i)).toNat) :
    view.bytes (copiedHeap env ptr n q i mid).world (q.toNat + t) =
      view.bytes mid.world (ptr.toNat + t) := by
  have apart := new.rangesApart old.whole differ.symm
  simp only [RangesApart] at apart
  rw [bytes_copiedHeap view books old new]
  exact memcpy_inside (by omega) below

theorem copied_outside (differ : j ≠ a) (has : BlockByte mid.chain j x) :
    view.bytes (copiedHeap env ptr n q i mid).world x = view.bytes mid.world x := by
  rw [bytes_copiedHeap view books old new]
  apply memcpy_outside
  by_contra inside
  have fits := new.fits
  have start : q.toNat + (x - q.toNat) = x := by omega
  have inNew : BlockByte mid.chain a x := start ▸ new.blockByte (by omega)
  exact differ (has.unique inNew)

end Copy

/-! ### What `realloc` keeps -/

/-- The result `q`, `h'` of `realloc(p, n)` for the live pointer `p` of block `i`: the new
range lies apart from the other live blocks, the bytes have moved, the old block is free,
and the other live blocks have their used bits and bytes. -/
structure KeepsData (view : ByteView env) (i : Nat) (p n : U32) (run : HeapRun W) (q : U32)
    (h' : Heap W) : Prop where
  apart : ∀ r k j, (r, k) ∈ run.live → r ≠ p → Backs run.heap.chain j r k →
    RangesApart (q, n) (r, blockSize (chainWord run.heap.chain j))
  copied : ∀ t < min n.toNat (blockSize (chainWord run.heap.chain i)).toNat,
    view.bytes h'.world (q.toNat + t) = view.bytes run.heap.world (p.toNat + t)
  freed : blockUsed (chainWord h'.chain i) = 0#32
  kept : ∀ r k j, (r, k) ∈ run.live → r ≠ p → Backs run.heap.chain j r k →
    blockUsed (chainWord h'.chain j) = blockUsed (chainWord run.heap.chain j) ∧
    ∀ t < (blockSize (chainWord run.heap.chain j)).toNat,
      view.bytes h'.world (r.toNat + t) = view.bytes run.heap.world (r.toNat + t)

/-- `realloc(p, n)` returns and keeps the data. -/
def ReallocKeeps (view : ByteView env) (i : Nat) (p n : U32) (run : HeapRun W) : Prop :=
  ∃ q h', realloc env p n run.heap = some (q, h') ∧ KeepsData view i p n run q h'

/-- Block `j` can serve as the buffer of the report: it is free, or the block `i` that is
given up, `malloc(n)` does not take it, and it has 256 to 768 bytes. -/
structure BufferBlock (i : Nat) (n : U32) (h : Heap W) (j : Nat) : Prop where
  inside : j < h.chain.length
  unused : blockUsed (chainWord h.chain j) = 0#32 ∨ j = i
  left : takenBlock n h ≠ some j
  large : 256#32 ≤ blockSize (chainWord h.chain j)
  small : blockSize (chainWord h.chain j) ≤ 768#32

/-- The report of `realloc(p, n)` does no harm: there is a block for its buffer; or the
chain takes another entry, which ends below the heap's limit; or the chain is full and its
last block is not that of another live pointer. -/
def ReportHarmless (i : Nat) (p n : U32) (run : HeapRun W) : Prop :=
  (∃ j, BufferBlock i n run.heap j) ∨
  (entriesAfter n run.heap ≤ maxBlocks ∧ lastAfter n run.heap + 256 ≤ kHeapMax.toNat) ∨
  (maxBlocks < entriesAfter n run.heap ∧ (takenBlock n run.heap = none ∨
    ∀ r k, (r, k) ∈ run.live → r ≠ p →
      ¬ Backs run.heap.chain (run.heap.chain.length - 1) r k))

section Realloc

variable (view : ByteView env) {run : HeapRun W} {p m n q : U32} {i a : Nat} {mid : Heap W}
  (block : Backs run.heap.chain i p m) (served : Served n q a run.heap mid)

theorem word_copiedHeap (inside : i < mid.chain.length) (j : Nat) :
    chainWord (copiedHeap env p n q i mid).chain j =
      if j = i then markFree (chainWord mid.chain i) else chainWord mid.chain j :=
  chainWord_set fun _ => inside

include block served

/-- The blocks the report may take are those of the heap before the call. -/
theorem fits_copiedHeap_iff (j : Nat) :
    (j < mid.chain.length ∧
      Fits 256#32 768#32 (chainWord (copiedHeap env p n q i mid).chain j)) ↔
      BufferBlock i n run.heap j := by
  have old := served.keeps block
  have differ : i ≠ a := served.ne_of_used block.inside block.used
  have word := served.word block
  rw [word_copiedHeap old.inside, served.inside_iff]
  constructor
  · rintro ⟨inside, large, small, unused⟩
    by_cases own : j = i
    · subst own
      rw [if_pos rfl, blockSize_markFree, word] at large small
      exact ⟨block.inside, Or.inr rfl, (served.left_iff block.inside).mpr differ, large, small⟩
    · rw [if_neg own] at large small unused
      have notNew : j ≠ a := by
        rintro rfl
        exact served.backs.used unused
      have inChain := inside.resolve_right notNew
      rw [served.words j inChain notNew] at large small unused
      exact ⟨inChain, Or.inl unused, (served.left_iff inChain).mpr notNew, large, small⟩
  · rintro ⟨inside, unused, left, large, small⟩
    refine ⟨Or.inl inside, ?_⟩
    split
    · rename_i own
      subst own
      rw [word]
      exact ⟨by rwa [blockSize_markFree], by rwa [blockSize_markFree], blockUsed_markFree _⟩
    · rename_i other
      rw [served.words j inside ((served.left_iff inside).mp left)]
      exact ⟨large, small, unused.resolve_right other⟩

/-- A report that clears no used bit of another live block keeps the data. -/
theorem keepsData_of_report (holds : LiveBlocks run.heap run.live) (books : Accounted mid)
    (grown : ∀ x, kHeapBottom.toNat ≤ x → x < run.heap.kHeapTop.toNat →
      view.bytes mid.world x = view.bytes run.heap.world x)
    {h' : Heap W} {Cleared : Nat → Prop}
    (words : ∀ j < mid.chain.length,
      chainWord h'.chain j = chainWord (copiedHeap env p n q i mid).chain j ∨
      Cleared j ∧ chainWord h'.chain j =
        markFree (chainWord (copiedHeap env p n q i mid).chain j))
    (bytes : ∀ j x, blockUsed (chainWord (copiedHeap env p n q i mid).chain j) ≠ 0#32 →
      BlockByte (copiedHeap env p n q i mid).chain j x →
      view.bytes h'.world x = view.bytes (copiedHeap env p n q i mid).world x)
    (others : ∀ r k j, (r, k) ∈ run.live → r ≠ p → Backs run.heap.chain j r k → ¬ Cleared j) :
    KeepsData view i p n run q h' := by
  obtain ⟨more, longer⟩ := served.sizes
  have old := served.keeps block
  have new := served.backs
  have differ : i ≠ a := served.ne_of_used block.inside block.used
  have size : blockSize (chainWord mid.chain i) = blockSize (chainWord run.heap.chain i) := by
    rw [served.word block]
  have before : ∀ {j x}, BlockByte run.heap.chain j x →
      view.bytes mid.world x = view.bytes run.heap.world x := fun has =>
    grown _ has.1 (Nat.lt_of_lt_of_le (has.lt_last holds.books) holds.covered)
  have inCopied : ∀ {j x}, BlockByte mid.chain j x →
      BlockByte (copiedHeap env p n q i mid).chain j x := fun has =>
    has.of_sizes ((sizes_set (blockSize_markFree _)).trans (append_nil _).symm)
  have word : ∀ {j}, j ≠ i →
      chainWord (copiedHeap env p n q i mid).chain j = chainWord mid.chain j := fun other =>
    (word_copiedHeap old.inside _).trans (if_neg other)
  refine ⟨fun r k j live other backs => ?_, fun t below => ?_, ?_, fun r k j live other backs => ?_⟩
  · have apart := new.rangesApart (served.keeps backs).whole
      (served.ne_of_used backs.inside backs.used).symm
    rwa [served.word backs] at apart
  · -- back from the report over the copy to the heap before the call
    have inNew : BlockByte mid.chain a (q.toNat + t) := new.blockByte (by
      have fits := new.fits
      omega)
    rw [bytes a _ (by rw [word differ.symm]; exact new.used) (inCopied inNew),
      copied_inside view books old new differ (by rwa [size])]
    exact before (block.blockByte (by omega))
  · have free : blockUsed (chainWord (copiedHeap env p n q i mid).chain i) = 0#32 := by
      rw [word_copiedHeap old.inside, if_pos rfl]
      exact blockUsed_markFree _
    rcases words i old.inside with same | ⟨_, cleared⟩
    · rw [same]
      exact free
    · rw [cleared]
      exact blockUsed_markFree _
  · have notOld : j ≠ i := by
      rintro rfl
      exact other (backs.pointer_eq block)
    have kept := served.keeps backs
    have same : chainWord (copiedHeap env p n q i mid).chain j = chainWord run.heap.chain j :=
      (word notOld).trans (served.word backs)
    constructor
    · rcases words j kept.inside with unchanged | ⟨cleared, _⟩
      · rw [unchanged, same]
      · exact absurd cleared (others r k j live other backs)
    · intro t below
      have inBlock := backs.blockByte below
      have inMid : BlockByte mid.chain j (r.toNat + t) := inBlock.of_sizes longer
      rw [bytes j _ (by rw [same]; exact backs.used) (inCopied inMid),
        copied_outside view books old new (served.ne_of_used backs.inside backs.used) inMid]
      exact before inBlock

end Realloc

/-- `realloc(p, n)` has come to its report, with the heap `c`. -/
structure AtReport (view : ByteView env) (i : Nat) (p n : U32) (run : HeapRun W) (q : U32)
    (c : Heap W) : Prop where
  result : realloc env p n run.heap = (printf env c).bind fun h' => some (q, h')
  books : Accounted c
  covered : c.kLastAlloc.toNat ≤ c.kHeapTop.toNat
  quiet : c.notes = []
  entries : c.chain.length = entriesAfter n run.heap
  last : c.kLastAlloc.toNat = lastAfter n run.heap
  fits_iff : ∀ j, (j < c.chain.length ∧ Fits 256#32 768#32 (chainWord c.chain j)) ↔
    BufferBlock i n run.heap j
  keeps : ∀ (h' : Heap W) (Cleared : Nat → Prop),
    (∀ j < c.chain.length, chainWord h'.chain j = chainWord c.chain j ∨
      Cleared j ∧ chainWord h'.chain j = markFree (chainWord c.chain j)) →
    (∀ j x, blockUsed (chainWord c.chain j) ≠ 0#32 → BlockByte c.chain j x →
      view.bytes h'.world x = view.bytes c.world x) →
    (∀ r k j, (r, k) ∈ run.live → r ≠ p → Backs run.heap.chain j r k → ¬ Cleared j) →
    KeepsData view i p n run q h'

section AtReport

variable {view : ByteView env} {run : HeapRun W} {p m n q : U32} {i : Nat} {mid c : Heap W}

theorem AtReport.of_malloc (view : ByteView env) (holds : LiveBlocks run.heap run.live)
    (block : Backs run.heap.chain i p m) (positive : n ≠ 0#32)
    (done : malloc env n run.heap = some (q, mid)) (quiet : mid.notes = []) :
    AtReport view i p n run q (copiedHeap env p n q i mid) := by
  have noWrap : HeapNote.wrapped ∉ mid.notes := by simp [quiet]
  obtain ⟨grown, _, low⟩ := holds.malloc positive done quiet
  obtain ⟨a, served⟩ := Served.of_malloc holds.books positive done noWrap (ne_null_of_low low)
  have old := served.keeps block
  have entries : (copiedHeap env p n q i mid).chain.length = mid.chain.length := by
    simp [copiedHeap]
  refine
    { result := realloc_eq done (findBlock_of_covers grown.books.last
        (covers_chain old.inside old.bytes) old.address)
      books := accounted_copiedHeap grown.books
      covered := grown.covered
      quiet
      entries := entries.trans served.entries
      last := served.last
      fits_iff := fun j => entries.symm ▸ fits_copiedHeap_iff block served j
      keeps := fun h' Cleared words bytes others => ?_ }
  exact keepsData_of_report view block served holds grown.books
    (fun x low below => malloc_bytes view holds.books done noWrap low below)
    (entries ▸ words) bytes others

namespace AtReport

/-- With a buffer the report does no harm. -/
theorem buffered (report : AtReport view i p n run q c)
    (printed : ∃ h', printf env c = some h' ∧ Reported view c h') :
    ReallocKeeps view i p n run := by
  obtain ⟨h', printed, reported⟩ := printed
  refine ⟨q, h', by rw [report.result, printed]; rfl, ?_⟩
  exact report.keeps h' (fun _ => False) (fun j inside => Or.inl (reported.words j inside))
    reported.bytes fun _ _ _ _ _ _ => not_false

/-- The last block at the report, where it is an old one, was the last block before. -/
theorem last_block_iff (report : AtReport view i p n run q c) (inside : j < run.heap.chain.length) :
    j = c.chain.length - 1 ↔ takenBlock n run.heap ≠ none ∧ j = run.heap.chain.length - 1 := by
  have entries := report.entries
  cases taken : takenBlock n run.heap with
  | some a =>
    simp only [entriesAfter, taken, isSome_some, if_true] at entries
    simp [entries]
  | none =>
    simp only [entriesAfter, taken, isSome_none, Bool.false_eq_true, if_false] at entries
    simp only [ne_eq, not_true_eq_false, false_and, iff_false]
    omega

/-- On a full chain the last block loses its used bit. -/
theorem full_iff (report : AtReport view i p n run q c)
    (noFit : findBestFree 256#32 c.chain = some none) (full : maxBlocks < c.chain.length) :
    ReallocKeeps view i p n run ↔ takenBlock n run.heap = none ∨
      ∀ r k, (r, k) ∈ run.live → r ≠ p →
        ¬ Backs run.heap.chain (run.heap.chain.length - 1) r k := by
  obtain ⟨h', printed, chain, bytes⟩ := printf_frees_last view report.books noFit full
  have word : ∀ j, chainWord h'.chain j =
      if j = c.chain.length - 1 then markFree (chainWord c.chain (c.chain.length - 1))
      else chainWord c.chain j := by
    intro j
    rw [chain]
    exact chainWord_set fun _ => by omega
  constructor
  · rintro ⟨q', after, result, keeps⟩
    rw [report.result, printed] at result
    cases result
    by_contra harm
    rw [not_or] at harm
    obtain ⟨taken, harm⟩ := harm
    -- the last block is an old one, and `free(NULL)` has cleared its used bit
    refine harm fun r k live other backs => backs.used ?_
    have isLast := (report.last_block_iff backs.inside).mpr ⟨taken, rfl⟩
    rw [← (keeps.kept r k _ live other backs).1, word, if_pos isLast]
    exact blockUsed_markFree _
  · intro safe
    refine ⟨q, h', by rw [report.result, printed]; rfl, ?_⟩
    refine report.keeps h' (fun j => j = c.chain.length - 1) (fun j inside => ?_)
      (fun j x _ has => bytes x has.1) fun r k j live other backs isLast => ?_
    · rw [word]
      split
      · rename_i isLast
        exact Or.inr ⟨isLast, by rw [isLast]⟩
      · exact Or.inl rfl
    · obtain ⟨taken, isOldLast⟩ := (report.last_block_iff backs.inside).mp isLast
      subst isOldLast
      exact safe.resolve_left taken r k live other backs

/-- The report decides whether `realloc` keeps the data. -/
theorem keeps_iff (report : AtReport view i p n run q c) :
    ReallocKeeps view i p n run ↔ ReportHarmless i p n run := by
  obtain ⟨buffer, search, best⟩ := findBestFree_spec (n := 256#32) (by decide) c.chain
  cases buffer with
  | some l =>
    have isBuffer := (report.fits_iff l).mp ⟨best.1, best.2.1⟩
    exact iff_of_true (report.buffered (printf_found view report.books search best))
      (Or.inl ⟨l, isBuffer⟩)
  | none =>
    have noBuffer : ¬ ∃ j, BufferBlock i n run.heap j := by
      rintro ⟨j, isBuffer⟩
      obtain ⟨inside, fits⟩ := (report.fits_iff j).mpr isBuffer
      exact best j inside fits
    rw [ReportHarmless, or_iff_right noBuffer, ← report.entries, ← report.last]
    by_cases full : maxBlocks < c.chain.length
    · rw [report.full_iff search full]
      simp [full, Nat.not_le.mpr full]
    · have room := Nat.le_of_not_lt full
      by_cases below : c.kLastAlloc.toNat + 256 ≤ kHeapMax.toNat
      · exact iff_of_true (report.buffered (printf_appends view report.books report.covered
          report.quiet search room below)) (Or.inl ⟨room, below⟩)
      · refine iff_of_false ?_ (by simp [full, below])
        rintro ⟨q', h', result, _⟩
        rw [report.result, printf_hangs report.books report.covered search room
          (Nat.lt_of_not_le below)] at result
        cases result

end AtReport

end AtReport

/-- In every state that a quiet run of legal calls reaches, a live pointer has a block, and
for every size that `malloc` serves `realloc` keeps the data exactly when its report does
no harm. -/
theorem realloc_keeps_data_iff (view : ByteView env) {run : HeapRun W}
    (reached : (((heapSystem env).restrict LegalCall).within Quiet).Reachable run)
    {p m n q : U32} {mid : Heap W} (live : (p, m) ∈ run.live) (positive : n ≠ 0#32)
    (done : malloc env n run.heap = some (q, mid)) (quiet : mid.notes = []) :
    (∃ i, Backs run.heap.chain i p m) ∧ ∀ i, Backs run.heap.chain i p m →
      (ReallocKeeps view i p n run ↔ ReportHarmless i p n run) := by
  have holds := LiveBlocks.of_reachable reached
  exact ⟨holds.backed _ live, fun i block =>
    (AtReport.of_malloc view holds block positive done quiet).keeps_iff⟩

/-! ### A machine with bytes -/

/-- Memory by address. A report leaves its buffer zeroed, as `vsnprintf` does. -/
def ramEnv : HeapEnv Bytes where
  mapHeapPage _ b := b
  memcpy dest src n b := memcpy b dest.toNat src.toNat n.toNat
  formatInto buf b := memset b buf.toNat 0#8 256

def ramView : ByteView ramEnv where
  bytes b := b
  mapHeapPage _ _ _ _ _ := rfl
  memcpy _ _ _ _ _ _ := rfl
  formatInto buf b x _ outside := by
    simp only [ramEnv]
    rw [memset_outside outside]

/-- One byte grown to two: the report takes a buffer behind the two blocks. -/
theorem one_byte_grown :
    ∃ run : HeapRun Bytes,
      (((heapSystem ramEnv).restrict LegalCall).within Quiet).Reachable run ∧
      (kHeapBottom, 1#32) ∈ run.live ∧ ReallocKeeps ramView 0 kHeapBottom 2#32 run := by
  obtain ⟨world, live, reached, all⟩ :=
    reachable_filledOver ramEnv (fun _ => 0#8) (k := 1) (by decide)
  have noFit : findBestFree 2#32 (filledOver world 1).chain = some none :=
    findBestFree_filled (by decide) 1
  obtain ⟨notes, done, noted⟩ := malloc_new ramEnv (h := filledOver world 1)
    (n := 2#32) (by decide) rfl noFit (show (filledHeap 1).chain.length ≤ maxBlocks by decide)
    (show topAfter 2#32 (filledHeap 1) = some 0xC0310000#32 by decide)
  have quiet : notes = [] := noted.same
    ⟨show (filledHeap 1).kLastAlloc.toNat + _ < _ by decide, fun reaches =>
      absurd reaches (show ¬ (filledHeap 1).kHeapTop ≤ (filledHeap 1).kLastAlloc + _ by decide)⟩
  have first : Backs (filledHeap 1).chain 0 kHeapBottom 1#32 :=
    ⟨by decide, by decide, by decide, by decide, by decide⟩
  refine ⟨_, reached, all 0 (by decide), ?_⟩
  refine ((realloc_keeps_data_iff ramView reached (all 0 (by decide)) (by decide) done quiet).2 0
    first).mpr (Or.inr (Or.inl ⟨?_, ?_⟩))
  · show entriesAfter 2#32 (filledHeap 1) ≤ maxBlocks
    decide
  · show lastAfter 2#32 (filledHeap 1) + 256 ≤ kHeapMax.toNat
    decide

/-- Block `j` of a filled chain. -/
theorem backs_filled {k : Nat} (inside : j < k) (few : k ≤ 1025) :
    Backs (filledHeap k).chain j (filledHeap j).kLastAlloc 1#32 := by
  have word := chainWord_filledHeap inside
  have ones : sizes (filledHeap k).chain = List.replicate k 1 := by
    simp [sizes, filledHeap, blockSize]
  refine ⟨by rwa [length_filledHeap], by rw [word]; decide, ?_, by decide, by rw [word]; decide⟩
  rw [toNat_filledHeap_last (by omega), ones, offset, take_replicate]
  simp [toNat_kHeapBottom]
  omega

/-- All 1025 entries are one byte long, and the second one is free. -/
def holedHeap (world : Bytes) : Heap Bytes :=
  { filledOver world 1025 with chain := (filledHeap 1025).chain.set 1 1#32 }

theorem length_holedHeap (world : Bytes) : (holedHeap world).chain.length = 1025 := by
  rw [holedHeap, length_set, length_filledHeap]

theorem chainWord_holedHeap (world : Bytes) (inside : j < 1025) :
    chainWord (holedHeap world).chain j = if j = 1 then 1#32 else 0x80000001#32 := by
  have word : chainWord (holedHeap world).chain j =
      if j = 1 then 1#32 else chainWord (filledHeap 1025).chain j :=
    chainWord_set fun _ => by rw [length_filledHeap]; decide
  rw [word, chainWord_filledHeap inside]

/-- 1025 calls of `malloc(1)`, and the second block given back. -/
theorem reachable_holedHeap :
    ∃ world live, (((heapSystem ramEnv).restrict LegalCall).within Quiet).Reachable
        { heap := holedHeap world, live } ∧
      ∀ j < 1025, j ≠ 1 → ((filledHeap j).kLastAlloc, 1#32) ∈ live := by
  obtain ⟨world, live, reached, all⟩ :=
    reachable_filledOver ramEnv (fun _ => 0#8) (k := 1025) (Nat.le_refl _)
  have holds := LiveBlocks.of_reachable reached
  have freed := holds.freedChain_eq (backs_filled (k := 1025) (j := 1) (by decide) (by decide))
  have done : free (filledHeap 1).kLastAlloc (filledOver world 1025) =
      some ((filledHeap 1).kLastAlloc, holedHeap world) := by
    show some (_, { filledOver world 1025 with
      chain := (filledHeap 1025).chain.set 1 (markFree (chainWord (filledHeap 1025).chain 1)) }) = _
    rfl
  refine ⟨world, _, reachable_call reached (.free done) ⟨1#32, all 1 (by decide)⟩ rfl, ?_⟩
  intro j inside other
  rw [dropLive, mem_filter]
  refine ⟨all j inside, ?_⟩
  have notSecond : (filledHeap j).kLastAlloc ≠ (filledHeap 1).kLastAlloc := by
    intro same
    have value := congrArg BitVec.toNat same
    rw [toNat_filledHeap_last (by omega), toNat_filledHeap_last (by decide)] at value
    omega
  simpa using notSecond

/-- The free byte is what `malloc(1)` takes. -/
theorem findBestFree_holedHeap (world : Bytes) :
    findBestFree 1#32 (holedHeap world).chain = some (some 1) := by
  have length := length_holedHeap world
  obtain ⟨found, search, best⟩ := findBestFree_spec (n := 1#32) (by decide) (holedHeap world).chain
  cases found with
  | none =>
    refine absurd ?_ (best 1 (by rw [length]; decide))
    rw [chainWord_holedHeap world (by decide)]
    exact ⟨by decide, by decide, by decide⟩
  | some l =>
    obtain ⟨inside, ⟨_, _, unused⟩, _⟩ := best
    rw [length] at inside
    rw [chainWord_holedHeap world inside] at unused
    split at unused
    · rename_i isSecond
      rw [search, isSecond]
    · exact absurd unused (by decide)

/-- `realloc` of the first byte takes the free block; its report finds no buffer, and
`free(NULL)` takes the used bit from the last block. -/
theorem report_frees_last_block :
    ¬ ∀ run : HeapRun Bytes,
      (((heapSystem ramEnv).restrict LegalCall).within Quiet).Reachable run →
      ∀ (p m n q : U32) (i : Nat) (mid : Heap Bytes), (p, m) ∈ run.live →
        Backs run.heap.chain i p m → n ≠ 0#32 → malloc ramEnv n run.heap = some (q, mid) →
        mid.notes = [] → ReallocKeeps ramView i p n run := by
  intro keeps
  obtain ⟨world, live, reached, all⟩ := reachable_holedHeap
  have holds := LiveBlocks.of_reachable reached
  have backs : ∀ j < 1025, j ≠ 1 →
      Backs (holedHeap world).chain j (filledHeap j).kLastAlloc 1#32 := fun j inside other =>
    (backs_filled inside (Nat.le_refl _)).set (j := 1)
      (by rw [chainWord_filledHeap (by decide)]; decide) fun same => absurd same other
  have search := findBestFree_holedHeap world
  have length := length_holedHeap world
  have done := malloc_reuse ramEnv (n := 1#32) (h := holedHeap world) (by decide) rfl search
    (by rw [length]; decide)
  have first := backs 0 (by decide) (by decide)
  have report := AtReport.of_malloc ramView holds first (by decide) done rfl
  have taken : takenBlock 1#32 (holedHeap world) = some 1 := by
    rw [takenBlock, search]
    rfl
  rcases report.keeps_iff.mp (keeps _ reached _ _ _ _ _ _ (all 0 (by decide) (by decide)) first
    (by decide) done rfl) with ⟨j, buffer⟩ | ⟨room, _⟩ | ⟨_, unowned | unowned⟩
  · have large := buffer.large
    rw [chainWord_holedHeap world (length ▸ buffer.inside)] at large
    split at large <;> exact absurd large (by decide)
  · simp only [entriesAfter, taken, length] at room
    exact absurd room (by decide)
  · rw [taken] at unowned
    cases unowned
  · have last := backs 1024 (by decide) (by decide)
    refine unowned _ _ (all 1024 (by decide) (by decide)) (by decide) ?_
    rw [length]
    exact last

end Crunchy
