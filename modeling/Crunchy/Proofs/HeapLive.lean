/-
Module: Crunchy.Proofs.HeapLive
Purpose: The live allocations of a heap run. Each one sits in a block of its own
  that is marked used, which every call keeps; the ranges handed out are therefore
  disjoint.
Trusted boundary: none
Main exports: Backs, LiveBlocks, LegalCall, heap_representation
-/
import Crunchy.Proofs.Heap

namespace Crunchy

open Lib BitVec Option List

variable {W : Type} {env : HeapEnv W}

variable {h mid : Heap W} {chain : List U32} {i : Nat} {m n p q w : U32}

/-! ### Blocks that back an allocation -/

/-- Block `i` is in use, starts at `p` and has room for `n` bytes. -/
structure Backs (chain : List U32) (i : Nat) (p n : U32) : Prop where
  inside : i < chain.length
  used : blockUsed (chainWord chain i) ≠ 0#32
  address : p.toNat = kHeapBottom.toNat + offset (sizes chain) i
  requested : 0 < n.toNat
  fits : n.toNat ≤ (blockSize (chainWord chain i)).toNat

/-- A block that is not empty covers its own start. -/
theorem covers_chain (inside : i < chain.length)
    (bytes : 0 < (blockSize (chainWord chain i)).toNat) :
    Covers (sizes chain) i (offset (sizes chain) i) := by
  have inSizes : i < (sizes chain).length := by
    rw [length_sizes]
    exact inside
  apply covers_offset inSizes
  rw [getElem_sizes inSizes]
  exact bytes

namespace Backs

variable {chain : List U32} {i j : Nat} {p n m : U32}

theorem bytes (backs : Backs chain i p n) : 0 < (blockSize (chainWord chain i)).toNat :=
  Nat.lt_of_lt_of_le backs.requested backs.fits

/-- A pointer belongs to the one block that starts there. -/
theorem eq_of_start (backs : Backs chain i p n) (inside : j < chain.length)
    (bytes : 0 < (blockSize (chainWord chain j)).toNat)
    (start : p.toNat = kHeapBottom.toNat + offset (sizes chain) j) : i = j := by
  have own := covers_chain backs.inside backs.bytes
  have other := covers_chain inside bytes
  have address := backs.address
  have same : offset (sizes chain) i = offset (sizes chain) j := by omega
  rw [← same] at other
  exact own.unique other

/-- The bytes end inside the block. -/
theorem end_le (backs : Backs chain i p n) :
    p.toNat + n.toNat ≤ kHeapBottom.toNat + (sizes chain).sum := by
  have inside : i < (sizes chain).length := by
    rw [length_sizes]
    exact backs.inside
  have stop := end_le_sum inside
  have address := backs.address
  have fits := backs.fits
  rw [getElem_sizes inside] at stop
  omega

/-- Different blocks have disjoint bytes. -/
theorem apart (one : Backs chain i p n) (two : Backs chain j q m) (before : i < j) :
    p.toNat + n.toNat ≤ q.toNat := by
  have inside : i < (sizes chain).length := by
    rw [length_sizes]
    exact one.inside
  have stop := end_le_offset inside before
  have fits := one.fits
  have address := one.address
  have other := two.address
  rw [getElem_sizes inside] at stop
  omega

/-- The pointer of a block is its address. -/
theorem pointer_eq (one : Backs chain i p n) (two : Backs chain i q m) : p = q := by
  apply eq_of_toNat_eq
  rw [one.address, two.address]

/-- More blocks at the end change nothing. -/
theorem append (backs : Backs chain i p n) (more : List U32) : Backs (chain ++ more) i p n := by
  have inside := backs.inside
  have word : chainWord (chain ++ more) i = chainWord chain i := by
    simp [chainWord, getElem?_append_left inside]
  refine ⟨by simp; omega, ?_, ?_, backs.requested, ?_⟩
  · rw [word]
    exact backs.used
  · rw [sizes_append, offset_append (by simp; omega)]
    exact backs.address
  · rw [word]
    exact backs.fits

/-- Marking another block, or this one as used, changes nothing. -/
theorem set (backs : Backs chain i p n) (same : blockSize w = blockSize (chainWord chain j))
    (kept : i = j → blockUsed w ≠ 0#32) : Backs (chain.set j w) i p n := by
  have inside := backs.inside
  have word : chainWord (chain.set j w) i = if i = j then w else chainWord chain i :=
    chainWord_set fun own => own ▸ inside
  refine ⟨by simpa using inside, ?_, ?_, backs.requested, ?_⟩
  · rw [word]
    split
    · rename_i own
      exact kept own
    · exact backs.used
  · rw [sizes_set same]
    exact backs.address
  · rw [word]
    split
    · rename_i own
      subst own
      rw [same]
      exact backs.fits
    · exact backs.fits

theorem requested_pos (requested : n ≠ 0#32) : 0 < n.toNat :=
  Nat.pos_of_ne_zero fun zero => requested (eq_of_toNat_eq zero)

/-- A free block that is taken for `n` bytes. -/
theorem reused (books : Accounted h) (requested : n ≠ 0#32) (inside : i < h.chain.length)
    (large : n ≤ blockSize (chainWord h.chain i)) :
    Backs (h.chain.set i (markUsed (chainWord h.chain i))) i
      (kHeapBottom + sizeBefore h.chain i) n := by
  have word : chainWord (h.chain.set i (markUsed (chainWord h.chain i))) i =
      markUsed (chainWord h.chain i) := by
    rw [chainWord_set fun _ => inside, if_pos rfl]
  refine ⟨by simpa using inside, ?_, ?_, requested_pos requested, ?_⟩
  · rw [word]
    exact blockUsed_markUsed _
  · rw [sizes_set (blockSize_markUsed _)]
    exact toNat_translate books (Nat.le_of_lt inside)
  · rw [word, blockSize_markUsed]
    exact le_def.mp large

/-- A block of `n` bytes behind the others. -/
theorem appended (books : Accounted h) (used : blockUsed w ≠ 0#32) (requested : n ≠ 0#32)
    (size : (blockSize w).toNat = n.toNat) :
    Backs (h.chain ++ [w]) h.chain.length h.kLastAlloc n := by
  have word : chainWord (h.chain ++ [w]) h.chain.length = w := by
    simp [chainWord]
  refine ⟨by simp, by rw [word]; exact used, ?_, requested_pos requested, by rw [word, size]⟩
  rw [sizes_append, offset_append (by simp), ← length_sizes, offset_length]
  exact books.last

end Backs

/-! ### The invariant -/

/-- The books are kept, every block has bytes, the heap's end is backed by pages,
and each live allocation has a block of its own. -/
structure LiveBlocks (h : Heap W) (live : List (U32 × U32)) : Prop where
  books : Accounted h
  positive : ∀ s ∈ sizes h.chain, 0 < s
  covered : h.kLastAlloc.toNat ≤ h.kHeapTop.toNat
  backed : ∀ block ∈ live, ∃ i, Backs h.chain i block.1 block.2
  distinct : (live.map Prod.fst).Nodup

namespace LiveBlocks

variable {h h' : Heap W} {live : List (U32 × U32)}

/-- A new allocation whose block holds no live one. -/
theorem add (holds : LiveBlocks h live) (backs : Backs h.chain i p n)
    (unowned : ∀ block ∈ live, block.1 ≠ p) : LiveBlocks h ((p, n) :: live) := by
  refine ⟨holds.books, holds.positive, holds.covered, ?_, ?_⟩
  · rintro block (_ | ⟨_, member⟩)
    · exact ⟨i, backs⟩
    · exact holds.backed block member
  · rw [List.map_cons, List.nodup_cons]
    refine ⟨?_, holds.distinct⟩
    rw [List.mem_map]
    rintro ⟨block, member, same⟩
    exact unowned block member same

theorem addLive_eq (low : kHeapBottom.toNat ≤ p.toNat) (live : List (U32 × U32)) :
    addLive p n live = (p, n) :: live := by
  rw [addLive, if_neg (ne_null_of_low low)]

/-- Dropping the pointer just added brings the old allocations back. -/
theorem dropLive_cons (unowned : ∀ block ∈ live, block.1 ≠ p) :
    dropLive p ((p, n) :: live) = live := by
  rw [dropLive, filter_cons]
  simpa [filter_eq_self] using unowned

/-- Marking blocks: the sizes stay, and each live allocation keeps its block. -/
theorem mark (holds : LiveBlocks h live) {live' : List (U32 × U32)}
    (same : sizes chain = sizes h.chain)
    (backed : ∀ block ∈ live', ∃ i, Backs chain i block.1 block.2)
    (distinct : (live'.map Prod.fst).Nodup) :
    LiveBlocks { h with chain, memlock := false } live' := by
  refine ⟨holds.books.withChain same, ?_, holds.covered, backed, distinct⟩
  rw [same]
  exact holds.positive

/-- A block at the end leaves the live allocations where they are. -/
theorem append (holds : LiveBlocks h live) (isAppended : h'.chain = h.chain ++ [w])
    (books : Accounted h') (size : 0 < (blockSize w).toNat)
    (covered : h'.kLastAlloc.toNat ≤ h'.kHeapTop.toNat) : LiveBlocks h' live := by
  refine ⟨books, ?_, covered, ?_, holds.distinct⟩
  · rw [isAppended]
    intro s member
    rcases mem_append.mp (sizes_append .. ▸ member) with old | new
    · exact holds.positive s old
    · simp [sizes] at new
      omega
  · intro block member
    obtain ⟨i, backs⟩ := holds.backed block member
    exact ⟨i, isAppended ▸ backs.append [w]⟩

/-- The end of the heap belongs to no live allocation, and backs the next one. -/
theorem append_live (holds : LiveBlocks h live) (isAppended : h'.chain = h.chain ++ [w])
    (books : Accounted h') (used : blockUsed w ≠ 0#32) (requested : n ≠ 0#32)
    (size : (blockSize w).toNat = n.toNat) (covered : h'.kLastAlloc.toNat ≤ h'.kHeapTop.toNat) :
    LiveBlocks h' ((h.kLastAlloc, n) :: live) ∧ ∀ block ∈ live, block.1 ≠ h.kLastAlloc := by
  have last := holds.books.last
  have unowned : ∀ block ∈ live, block.1 ≠ h.kLastAlloc := by
    intro block member same
    obtain ⟨i, backs⟩ := holds.backed block member
    have stop := backs.end_le
    have bytes := backs.requested
    rw [same] at stop
    omega
  have backs : Backs h'.chain h.chain.length h.kLastAlloc n := by
    rw [isAppended]
    exact .appended holds.books used requested size
  have positive := Backs.requested_pos requested
  have room := holds.append isAppended books (by omega) covered
  exact ⟨room.add backs unowned, unowned⟩

theorem malloc (holds : LiveBlocks h live) (positive : n ≠ 0#32)
    (done : Crunchy.malloc env n h = some (p, h')) (quiet : h'.notes = []) :
    LiveBlocks h' ((p, n) :: live) ∧ (∀ block ∈ live, block.1 ≠ p) ∧
      kHeapBottom.toNat ≤ p.toNat := by
  have last := holds.books.last
  have noWrap : HeapNote.wrapped ∉ h'.notes := by simp [quiet]
  have books := holds.books.malloc done noWrap
  cases malloc_outcome done with
  | zero isZero => exact absurd isZero positive
  | refused => simp at quiet
  | @reuse i _ best low =>
    obtain ⟨inside, ⟨large, _, unused⟩, _⟩ := best
    have address := toNat_translate holds.books (Nat.le_of_lt inside)
    have bytes := Nat.lt_of_lt_of_le (Backs.requested_pos positive) (le_def.mp large)
    have unowned : ∀ block ∈ live, block.1 ≠ kHeapBottom + sizeBefore h.chain i := by
      intro block member same
      obtain ⟨j, backs⟩ := holds.backed block member
      have isBlock := backs.eq_of_start inside bytes (same ▸ address)
      subst isBlock
      exact backs.used unused
    have same : sizes (h.chain.set i (markUsed (chainWord h.chain i))) = sizes h.chain :=
      sizes_set (blockSize_markUsed _)
    have marked := holds.mark same (fun block member => by
      obtain ⟨j, backs⟩ := holds.backed block member
      exact ⟨j, backs.set (blockSize_markUsed _) fun _ => blockUsed_markUsed _⟩) holds.distinct
    have backs := Backs.reused holds.books positive inside large
    exact ⟨marked.add backs unowned, unowned, by omega⟩
  | new _ best room growth noted =>
    obtain ⟨_, fits⟩ := noted.quiet noWrap
    obtain ⟨_, _, _, covered⟩ := topAfter_spec holds.books fits growth
    obtain ⟨grown, unowned⟩ := holds.append_live rfl books (blockUsed_markUsed _) positive
      (toNat_size_of_fits holds.books fits.1) (by rw [toNat_add, Nat.mod_eq_of_lt fits.1]; exact covered)
    exact ⟨grown, unowned, by omega⟩

/-- `find_block` finds the block of a live pointer. -/
theorem freedChain_eq (holds : LiveBlocks h live) (backs : Backs h.chain i p n) :
    freedChain p h = h.chain.set i (markFree (chainWord h.chain i)) := by
  rw [freedChain, findBlock_of_covers holds.books.last (covers_chain backs.inside backs.bytes)
    backs.address]

/-- Marking the block of a live pointer free ends that allocation and no other. -/
theorem release (holds : LiveBlocks h live) (member : (p, n) ∈ live) :
    LiveBlocks { h with chain := freedChain p h, memlock := false } (dropLive p live) := by
  obtain ⟨i, backs⟩ := holds.backed _ member
  rw [holds.freedChain_eq backs]
  refine holds.mark (sizes_set (blockSize_markFree _)) ?_ ?_
  · intro block kept
    rw [dropLive, mem_filter] at kept
    obtain ⟨j, other⟩ := holds.backed block kept.1
    refine ⟨j, other.set (blockSize_markFree _) fun same => ?_⟩
    subst same
    simp [other.pointer_eq backs] at kept
  · exact (filter_sublist.map Prod.fst).nodup holds.distinct

theorem free (holds : LiveBlocks h live) {r : U32} (member : (p, n) ∈ live)
    (done : Crunchy.free p h = some (r, h')) : LiveBlocks h' (dropLive p live) := by
  rw [free_eq holds.books.unlocked] at done
  cases done
  exact holds.release member

theorem withWorld (holds : LiveBlocks h live) (world : W) : LiveBlocks { h with world } live :=
  ⟨holds.books.withWorld world, holds.positive, holds.covered, holds.backed, holds.distinct⟩

/-- `printf` takes a buffer and gives it back. -/
theorem printf (holds : LiveBlocks h live) (done : Crunchy.printf env h = some h')
    (quiet : h'.notes = []) : LiveBlocks h' live := by
  obtain ⟨buf, mid, allocated, rfl⟩ := printf_outcome done
  obtain ⟨grown, unowned, _⟩ := holds.malloc (by decide) allocated quiet
  have dropped := (grown.release (mem_cons_self ..)).withWorld (env.formatInto buf mid.world)
  rwa [dropLive_cons unowned] at dropped

theorem realloc (holds : LiveBlocks h live) {ptr : U32} (positive : n ≠ 0#32)
    (member : (ptr, m) ∈ live) (done : Crunchy.realloc env ptr n h = some (p, h'))
    (quiet : h'.notes = []) : LiveBlocks h' (addLive p n (dropLive ptr live)) := by
  obtain ⟨new, mid, world, allocated, printed, isNew, _⟩ := realloc_cases done
  have silent : mid.notes = [] := subset_nil.mp (quiet ▸ (Changes.printf printed).kept)
  obtain ⟨grown, unowned, low⟩ := holds.malloc positive allocated silent
  obtain ⟨i, backs⟩ := grown.backed _ (mem_cons_of_mem _ member)
  have found : findBlock ptr mid = .entry i :=
    findBlock_of_covers grown.books.last (covers_chain backs.inside backs.bytes) backs.address
  have isResult : p = new := by
    rcases isNew with ⟨isNull, _⟩ | same
    · rw [found] at isNull
      cases isNull
    · exact same
  have released := (grown.release (mem_cons_of_mem _ member)).withWorld world
  have kept : dropLive ptr ((new, n) :: live) = (new, n) :: dropLive ptr live := by
    rw [dropLive, filter_cons_of_pos, dropLive]
    simpa using (unowned _ member).symm
  rw [isResult, addLive_eq low, ← kept]
  exact released.printf printed quiet

/-- The padding of `malloc_a` stays below the top, which is a page boundary. -/
theorem padded (holds : LiveBlocks h live) (isPadded : Padded h mid) :
    LiveBlocks mid live := by
  have aligned := holds.books.aligned
  have covered := holds.covered
  have books := isPadded.accounted holds.books
  cases isPadded with
  | onPage => exact holds
  | @pad w base off isBase size =>
    refine holds.append rfl books (by omega) ?_
    change base.toNat ≤ h.kHeapTop.toNat
    omega

/-- The page of slack `malloc_a` asks for covers its block, and more. -/
theorem slack_covers {top : U32} (books : Accounted mid) (reaches : mid.kHeapTop ≤ m)
    (growth : brk ((m - mid.kHeapTop) + 0x1000#32) mid.kHeapTop = some top)
    (fits : (m - mid.kHeapTop) + 0x1000#32 = 0#32 ∨
      ((m - mid.kHeapTop) + 0x1000#32).toNat + mid.kHeapTop.toNat < 2 ^ 32) :
    m.toNat < top.toNat := by
  have low := books.low
  rw [toNat_kHeapBottom] at low
  rw [le_def] at reaches
  have request : ((m - mid.kHeapTop) + 0x1000#32).toNat =
      m.toNat - mid.kHeapTop.toNat + 0x1000 := by
    rw [toNat_add, toNat_sub, toNat_ofNat]
    omega
  obtain ⟨_, _, _, ⟨isZero, _⟩ | value⟩ := brk_spec growth fits books.aligned books.high
  · have zero := congrArg BitVec.toNat isZero
    rw [request, toNat_ofNat] at zero
    omega
  · rw [request] at value
    omega

theorem mallocA (holds : LiveBlocks h live) (positive : n ≠ 0#32)
    (done : Crunchy.mallocA env n h = some (p, h')) (quiet : h'.notes = []) :
    LiveBlocks h' (addLive p n live) := by
  have noWrap : HeapNote.wrapped ∉ h'.notes := by simp [quiet]
  have books := holds.books.mallocA done noWrap
  rcases mallocA_outcome holds.books done noWrap with ⟨_, mid, _, rfl⟩ |
    ⟨mid, isPadded, isLast, fits, grown⟩
  · simp at quiet
  · have middle := holds.padded isPadded
    have last := middle.books.last
    have size := toNat_size_of_fits middle.books fits
    rw [isLast, addLive_eq (by omega)]
    rcases grown with ⟨rfl, below⟩ | ⟨reaches, q, grown⟩
    · exact (middle.append_live rfl books (blockUsed_markUsed _) positive size
        (Nat.le_of_lt below)).1
    · rcases sbrk_noted grown with ⟨top, notes, growth, noted, rfl⟩ | full
      · obtain ⟨_, sum⟩ := noted.quiet noWrap
        exact (middle.append_live rfl books (blockUsed_markUsed _) positive size
          (Nat.le_of_lt (slack_covers middle.books reaches growth sum))).1
      · simp [quiet] at full

end LiveBlocks

/-! ### Runs of legal calls -/

/-- `malloc_a` and `realloc` ask for bytes, and only live pointers are given
back. -/
def LegalCall (run : HeapRun W) : HeapCall → Prop
  | .malloc _ => True
  | .mallocA n => n ≠ 0#32
  | .realloc ptr n => n ≠ 0#32 ∧ ∃ m, (ptr, m) ∈ run.live
  | .free ptr => ∃ m, (ptr, m) ∈ run.live

/-- No address sum has wrapped, `HEAP FULL` has not been reported and no append
has been refused. -/
def Quiet (run : HeapRun W) : Prop := run.heap.notes = []

theorem reachable_call {before after : HeapRun W} {call : HeapCall}
    (reached : (((heapSystem env).restrict LegalCall).within Quiet).Reachable before)
    (taken : HeapStep env before call after) (legal : LegalCall before call)
    (quiet : Quiet after) :
    (((heapSystem env).restrict LegalCall).within Quiet).Reachable after :=
  reached.step ⟨⟨legal, taken⟩, quiet⟩

/-- A run of legal calls in which nothing is noted is a run, and one without a wrap. -/
theorem reachable_of_legal {run : HeapRun W}
    (reached : (((heapSystem env).restrict LegalCall).within Quiet).Reachable run) :
    ((heapSystem env).within NoWrap).Reachable run ∧ (heapSystem env).Reachable run := by
  have noWrap : ∀ run : HeapRun W, Quiet run → NoWrap run := by
    intro run quiet
    rw [NoWrap, show run.heap.notes = [] from quiet]
    exact not_mem_nil
  exact ⟨reached.mono (fun _ isStart => ⟨isStart.1, noWrap _ isStart.2⟩)
      fun _ _ _ taken => ⟨taken.1.2, noWrap _ taken.2⟩,
    reached.mono (fun _ isStart => isStart.1) fun _ _ _ taken => taken.1.2⟩

theorem LiveBlocks.of_reachable {run : HeapRun W}
    (reached : (((heapSystem env).restrict LegalCall).within Quiet).Reachable run) :
    LiveBlocks run.heap run.live := by
  refine reached.invariant (fun run => LiveBlocks run.heap run.live) ?_ ?_
  · rintro run ⟨⟨⟨world, init⟩, noneLive⟩, _⟩
    rw [eq_freshHeap init, noneLive]
    refine ⟨Accounted.fresh env world, nofun, ?_, nofun, Pairwise.nil⟩
    show kHeapBottom.toNat ≤ (0xC0310000#32).toNat
    decide
  · rintro before event after holds ⟨⟨legal, taken⟩, quiet⟩
    cases taken with
    | @malloc n p heap done =>
      by_cases isZero : n = 0#32
      · subst isZero
        cases done
        simpa [addLive] using holds
      · obtain ⟨grown, _, low⟩ := holds.malloc isZero done quiet
        rw [LiveBlocks.addLive_eq low]
        exact grown
    | mallocA done => exact holds.mallocA legal done quiet
    | realloc done =>
      obtain ⟨positive, m, member⟩ := legal
      exact holds.realloc positive member done quiet
    | free done =>
      obtain ⟨m, member⟩ := legal
      exact holds.free member done

/-- Two ranges have no byte in common. -/
def RangesApart (one two : U32 × U32) : Prop :=
  one.1.toNat + one.2.toNat ≤ two.1.toNat ∨ two.1.toNat + two.2.toNat ≤ one.1.toNat

theorem Backs.rangesApart {j : Nat} (one : Backs chain i p n) (two : Backs chain j q m)
    (differ : i ≠ j) :
    RangesApart (p, n) (q, m) := by
  rcases Nat.lt_or_gt_of_ne differ with before | after
  · exact Or.inl (one.apart two before)
  · exact Or.inr (two.apart one after)

theorem LiveBlocks.disjoint {live : List (U32 × U32)} (holds : LiveBlocks h live) :
    live.Pairwise RangesApart := by
  have distinct : live.Pairwise fun one two => one.1 ≠ two.1 := by
    have nodup := holds.distinct
    rwa [List.Nodup, pairwise_map] at nodup
  refine distinct.imp_of_mem fun {one two} oneMember twoMember differ => ?_
  obtain ⟨i, backs⟩ := holds.backed one oneMember
  obtain ⟨j, other⟩ := holds.backed two twoMember
  refine backs.rangesApart other fun same => differ ?_
  subst same
  exact backs.pointer_eq other

/-- The representation of the heap in every state of every run of legal calls that
stays quiet. -/
theorem heap_representation {run : HeapRun W}
    (reached : (((heapSystem env).restrict LegalCall).within Quiet).Reachable run) :
    run.heap.kLastAlloc.toNat = kHeapBottom.toNat + (sizes run.heap.chain).sum ∧
    run.heap.kHeapTop.toNat % 0x1000 = 0 ∧
    run.heap.kLastAlloc.toNat ≤ run.heap.kHeapTop.toNat ∧
    run.heap.kHeapTop.toNat ≤ kHeapMax.toNat ∧
    run.live.Pairwise RangesApart ∧
    ∀ block ∈ run.live, kHeapBottom.toNat ≤ block.1.toNat ∧
      block.1.toNat + block.2.toNat ≤ run.heap.kLastAlloc.toNat := by
  have holds := LiveBlocks.of_reachable reached
  have last := holds.books.last
  refine ⟨last, holds.books.aligned, holds.covered, holds.books.high, holds.disjoint, ?_⟩
  intro block member
  obtain ⟨i, backs⟩ := holds.backed block member
  have address := backs.address
  have stop := backs.end_le
  exact ⟨by omega, by omega⟩

/-- A small quiet heap. -/
def smallHeap (chain : List U32) (last : U32) : Heap Unit where
  chain := chain
  kHeapTop := 0xC0310000#32
  kLastAlloc := last
  memlock := false
  notes := []
  world := ()

theorem reachable_empty :
    (((heapSystem bareEnv).restrict LegalCall).within Quiet).Reachable
      { heap := smallHeap [] kHeapBottom, live := [] } :=
  .start ⟨⟨⟨(), by decide +kernel⟩, rfl⟩, rfl⟩

/-- Sixteen bytes of a fresh heap. -/
theorem reachable_sixteen :
    (((heapSystem bareEnv).restrict LegalCall).within Quiet).Reachable
      { heap := smallHeap [0x80000010#32] 0xC0300010#32
        live := addLive kHeapBottom 16#32 [] } := by
  have done : malloc bareEnv 16#32 (smallHeap [] kHeapBottom) =
      some (kHeapBottom, smallHeap [0x80000010#32] 0xC0300010#32) := by decide +kernel
  exact reachable_call reachable_empty (.malloc done) trivial rfl

/-- Sixteen bytes, a page-aligned page, and the sixteen bytes grown to thirty-two:
the free blocks left behind are the old sixteen bytes, the padding and the buffer
of the report. -/
theorem three_allocations :
    ∃ run : HeapRun Unit,
      (((heapSystem bareEnv).restrict LegalCall).within Quiet).Reachable run ∧
      run.live = [(0xC0302000#32, 32#32), (0xC0301000#32, 0x1000#32)] ∧
      run.live.Pairwise RangesApart := by
  have second : mallocA bareEnv 0x1000#32 (smallHeap [0x80000010#32] 0xC0300010#32) =
      some (0xC0301000#32,
        smallHeap [0x80000010#32, 0xFF0#32, 0x80001000#32] 0xC0302000#32) := by decide +kernel
  have third : realloc bareEnv kHeapBottom 32#32
      (smallHeap [0x80000010#32, 0xFF0#32, 0x80001000#32] 0xC0302000#32) =
      some (0xC0302000#32,
        smallHeap [0x10#32, 0xFF0#32, 0x80001000#32, 0x80000020#32, 0x100#32]
          0xC0302120#32) := by decide +kernel
  have two := reachable_call reachable_sixteen (.mallocA second)
    (show (0x1000#32 : U32) ≠ 0#32 by decide) rfl
  have three := reachable_call two (.realloc third) ⟨by decide, 16#32, by decide⟩ rfl
  exact ⟨_, three, by decide, (heap_representation three).2.2.2.2.1⟩

end Crunchy
