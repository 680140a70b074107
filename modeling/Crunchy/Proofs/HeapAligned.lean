/-
Module: Crunchy.Proofs.HeapAligned
Purpose: What `malloc_a` hands out: the first page boundary at or after the end of the heap,
  with the gap up to it left behind as a free block.
Trusted boundary: none
Main exports: NothingNoted, AlignedAppend, mallocA_appends_aligned
-/
import Crunchy.Proofs.HeapLive

namespace Crunchy

open Lib BitVec Option List

variable {W : Type} {env : HeapEnv W}

/-- The call that took the heap from `h` to `h'` has noted nothing of this kind. -/
def NothingNoted (note : HeapNote) (h h' : Heap W) : Prop :=
  h'.notes.count note = h.notes.count note

/-- `malloc_a(n)` took the heap from `h` to `h'` and returned `p`: a page boundary,
and the chain has grown by the gap before it and by the block. -/
structure AlignedAppend (n p : U32) (h h' : Heap W) : Prop where
  boundary : IsLeast {a : Nat | 0x1000 ∣ a ∧ h.kLastAlloc.toNat ≤ a} p.toNat
  appended : ∃ gap w, h'.chain = h.chain ++ gap ++ [w] ∧
    (p = h.kLastAlloc ∧ gap = [] ∨
      p ≠ h.kLastAlloc ∧ ∃ f, gap = [f] ∧ blockUsed f = 0#32 ∧
        (blockSize f).toNat = p.toNat - h.kLastAlloc.toNat) ∧
    blockUsed w ≠ 0#32 ∧ blockSize w = n
  last : h'.kLastAlloc.toNat = p.toNat + n.toNat
  covered : h'.kLastAlloc < h'.kHeapTop

/-- The boundary the padding reaches. -/
theorem Padded.boundary {h mid : Heap W} (padded : Padded h mid) :
    IsLeast {a : Nat | 0x1000 ∣ a ∧ h.kLastAlloc.toNat ≤ a} mid.kLastAlloc.toNat := by
  cases padded with
  | onPage aligned =>
    refine ⟨⟨Nat.dvd_of_mod_eq_zero aligned, Nat.le_refl _⟩, ?_⟩
    rintro a ⟨_, above⟩
    exact above
  | @pad w base off isBase size unused =>
    refine ⟨⟨?_, ?_⟩, ?_⟩
    · change 0x1000 ∣ base.toNat
      omega
    · change h.kLastAlloc.toNat ≤ base.toNat
      omega
    · rintro a ⟨multiple, above⟩
      change base.toNat ≤ a
      omega

/-- What the padding appends. -/
theorem Padded.gap {h mid : Heap W} (padded : Padded h mid) :
    ∃ gap, mid.chain = h.chain ++ gap ∧
      (mid.kLastAlloc = h.kLastAlloc ∧ gap = [] ∨
        mid.kLastAlloc ≠ h.kLastAlloc ∧ ∃ f, gap = [f] ∧ blockUsed f = 0#32 ∧
          (blockSize f).toNat = mid.kLastAlloc.toNat - h.kLastAlloc.toNat) := by
  cases padded with
  | onPage => exact ⟨[], by simp, Or.inl ⟨rfl, rfl⟩⟩
  | @pad w base off isBase size unused =>
    refine ⟨[w], rfl, Or.inr ⟨?_, w, rfl, unused, size⟩⟩
    rintro rfl
    omega

theorem Padded.notes {h mid : Heap W} (padded : Padded h mid) : mid.notes = h.notes := by
  cases padded <;> rfl

/-- A report that wraps no sum leaves the notes standing. -/
theorem printf_notes {h h' : Heap W} (done : printf env h = some h')
    (noWrap : HeapNote.wrapped ∉ h'.notes) : h.notes <:+ h'.notes := by
  obtain ⟨buf, mid, allocated, rfl⟩ := printf_outcome done
  cases malloc_outcome allocated with
  | zero => exact suffix_refl _
  | reuse => exact suffix_refl _
  | refused => exact suffix_cons _ _
  | new _ _ _ _ noted =>
    rw [(noted.quiet noWrap).1]

/-- `sbrk` outside the lock with nothing noted: it has moved the top. -/
theorem sbrk_grows {m r : U32} {h h' : Heap W}
    (done : sbrk env (printf env) m h = some (r, h')) (noWrap : HeapNote.wrapped ∉ h'.notes)
    (notFull : NothingNoted .heapFull h h') :
    ∃ top world, brk m h.kHeapTop = some top ∧
      (m = 0#32 ∨ m.toNat + h.kHeapTop.toNat < 2 ^ 32) ∧
      h' = { h with kHeapTop := top, world } := by
  rcases sbrk_outcome done with ⟨top, notes, growth, noted, rfl⟩ | printed
  · obtain ⟨rfl, fits⟩ := noted.quiet noWrap
    exact ⟨top, _, growth, fits, rfl⟩
  · have kept := printf_notes printed noWrap
    have summed : HeapNote.wrapped ∉ sumNotes m h.kHeapTop h.notes := fun member =>
      noWrap (kept.subset (mem_cons_of_mem _ member))
    rw [((noted_sumNotes m h.kHeapTop h.notes).quiet summed).1] at kept
    have counted := kept.sublist.count_le HeapNote.heapFull
    rw [count_cons_self, notFull] at counted
    omega

/-- In every state a run reaches without wrapping an address sum, a `malloc_a(n)`
that returns a pointer, wraps no sum and does not report `HEAP FULL` hands out the
next page boundary. -/
theorem mallocA_appends_aligned {run : HeapRun W}
    (reached : ((heapSystem env).within NoWrap).Reachable run) {n p : U32} {h' : Heap W}
    (done : mallocA env n run.heap = some (p, h')) (returned : p ≠ null)
    (noWrap : NothingNoted .wrapped run.heap h')
    (notFull : NothingNoted .heapFull run.heap h') : AlignedAppend n p run.heap h' := by
  have books := Accounted.of_reachable reached
  have quiet : HeapNote.wrapped ∉ h'.notes := by
    rw [← count_eq_zero, noWrap, count_eq_zero]
    exact reached.stays
  rcases mallocA_outcome books done quiet with ⟨isNull, _⟩ | ⟨mid, padded, rfl, fits, grown⟩
  · exact absurd isNull returned
  · have middle := padded.accounted books
    obtain ⟨gap, isPadded, isGap⟩ := padded.gap
    have last : (withBlock n mid).kLastAlloc.toNat = mid.kLastAlloc.toNat + n.toNat := by
      rw [withBlock, toNat_add, Nat.mod_eq_of_lt fits]
    have appended : (withBlock n mid).chain =
        run.heap.chain ++ gap ++ [markUsed (blockSize n)] := by
      rw [withBlock, isPadded]
    have size : blockSize (markUsed (blockSize n)) = n := by
      exact eq_of_toNat_eq (toNat_size_of_fits middle fits)
    rcases grown with ⟨rfl, below⟩ | ⟨reaches, q, grown⟩
    · exact ⟨padded.boundary, ⟨gap, _, appended, isGap, blockUsed_markUsed _, size⟩, last, below⟩
    · have silent : NothingNoted .heapFull (withBlock n mid) h' := by
        have noted := noted_sumNotes mid.kLastAlloc n mid.notes
        rw [NothingNoted, notFull, withBlock, noted.same fits, padded.notes]
      obtain ⟨top, world, growth, sum, rfl⟩ :=
        sbrk_grows grown quiet silent
      exact ⟨padded.boundary, ⟨gap, _, appended, isGap, blockUsed_markUsed _, size⟩, last,
        LiveBlocks.slack_covers middle reaches growth sum⟩

/-- A page-aligned page behind the sixteen bytes of a fresh heap. -/
theorem aligned_page_appended :
    ∃ run : HeapRun Unit, ((heapSystem bareEnv).within NoWrap).Reachable run ∧
      mallocA bareEnv 0x1000#32 run.heap = some (0xC0301000#32,
        smallHeap [0x80000010#32, 0xFF0#32, 0x80001000#32] 0xC0302000#32) ∧
      AlignedAppend 0x1000#32 0xC0301000#32 run.heap
        (smallHeap [0x80000010#32, 0xFF0#32, 0x80001000#32] 0xC0302000#32) := by
  have second : mallocA bareEnv 0x1000#32 (smallHeap [0x80000010#32] 0xC0300010#32) =
      some (0xC0301000#32,
        smallHeap [0x80000010#32, 0xFF0#32, 0x80001000#32] 0xC0302000#32) := by decide +kernel
  have reached := (reachable_of_legal reachable_sixteen).1
  exact ⟨_, reached, second, mallocA_appends_aligned reached second (by decide) rfl rfl⟩

/-- After `malloc(0x40D00000)` has wrapped the end of the heap to `0x01000000`, a
`malloc_a(0x80000000)` wraps nothing, and the word it appends has size zero: the
size shares its top bit with the used mark. -/
theorem wrapped_heap_appends_nothing :
    ¬ ∀ run : HeapRun Unit, (heapSystem bareEnv).Reachable run → ∀ n p h',
      n ≠ 0#32 → mallocA bareEnv n run.heap = some (p, h') → p ≠ null →
      NothingNoted .wrapped run.heap h' → NothingNoted .heapFull run.heap h' →
      AlignedAppend n p run.heap h' := by
  intro aligned
  have first : malloc bareEnv 0x40D00000#32 (smallHeap [] kHeapBottom) =
      some (kHeapBottom,
        { smallHeap [0xC0D00000#32] 0x01000000#32 with notes := [.wrapped] }) := by
    decide +kernel
  have second : mallocA bareEnv 0x80000000#32
      { smallHeap [0xC0D00000#32] 0x01000000#32 with notes := [.wrapped] } =
      some (0x01000000#32,
        { smallHeap [0xC0D00000#32, 0x80000000#32] 0x81000000#32 with notes := [.wrapped] }) := by
    decide +kernel
  have start := (reachable_of_legal reachable_empty).2
  obtain ⟨_, ⟨gap, w, appended, isGap, _, size⟩, _, _⟩ :=
    aligned _ (start.step (.malloc first)) _ _ _ (by decide) second (by decide) rfl rfl
  have isLast : some 0x80000000#32 = some w :=
    (congrArg List.getLast? appended).trans getLast?_concat
  cases isLast
  exact absurd size (by decide)

end Crunchy
