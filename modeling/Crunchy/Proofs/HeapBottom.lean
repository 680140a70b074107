/-
Module: Crunchy.Proofs.HeapBottom
Purpose: Where the heap hands out memory, whatever becomes of its top: as long as
  no sum `K_LAST_ALLOC + n` wraps, no block lies below `K_HEAP_BOTTOM`. And what
  the heap keeps of the rest of the machine: what each of its effects keeps.
Trusted boundary: none
Main exports: mallocSums, mallocASums, Booked, HeapEnv.Keeps
-/
import Crunchy.Proofs.Heap

namespace Crunchy

open Lib BitVec Option List

variable {W : Type} {env : HeapEnv W}

variable {b : Nat} {m n p ptr r : U32} {world : W}

/-! ### The sums of the last allocation -/

/-- The sum `malloc(n)` forms with `K_LAST_ALLOC`: only for a new block. -/
def mallocSums (n : U32) (h : Heap W) : List (U32 × U32) :=
  if n ≠ 0#32 ∧ findBestFree n h.chain = some none ∧ h.chain.length ≤ maxBlocks then
    [(h.kLastAlloc, n)]
  else []

/-- The sum `malloc_a` forms for its padding. -/
def padSums (h : Heap W) : List (U32 × U32) :=
  if pageDiff h.kLastAlloc ≠ 0x1000#32 then [(h.kLastAlloc, pageDiff h.kLastAlloc)] else []

/-- `malloc_a(n)` after the padding: the sum for its block, and the one of the
buffer `printf` takes where `sbrk` reports `HEAP FULL`. -/
def blockSums (n : U32) (mid : Heap W) : List (U32 × U32) :=
  (mid.kLastAlloc, n) ::
    if mid.kHeapTop ≤ (withBlock n mid).kLastAlloc ∧
        brk (((withBlock n mid).kLastAlloc - mid.kHeapTop) + 0x1000#32) mid.kHeapTop = none then
      mallocSums 256#32 (withBlock n mid)
    else []

/-- The sums `malloc_a(n)` forms with `K_LAST_ALLOC`. -/
def mallocASums (env : HeapEnv W) (n : U32) (h : Heap W) : List (U32 × U32) :=
  padSums h ++
    match padToPage env h with
    | some (true, mid) => if mid.chain.length ≤ maxBlocks then blockSums n mid else []
    | _ => []

/-- None of the sums wraps. -/
def SumsBelow (sums : List (U32 × U32)) : Prop :=
  ∀ sum ∈ sums, sum.1.toNat + sum.2.toNat < 2 ^ 32

/-! ### The books without the top -/

/-- The part of the books that does not speak of the top. -/
structure Booked (h : Heap W) : Prop where
  last : h.kLastAlloc.toNat = kHeapBottom.toNat + (sizes h.chain).sum
  unlocked : h.memlock = false

/-- A returned pointer is `NULL` or lies in the heap. -/
def FromBottom (p : U32) : Prop := p = null ∨ kHeapBottom ≤ p

namespace Booked

variable {h h' : Heap W}

/-- With a top that is in order the books are complete: what is proved of those
and does not speak of the top holds here. -/
theorem accounted (books : Booked h) : Accounted { h with kHeapTop := kHeapBottom } :=
  ⟨books.last, show kHeapBottom.toNat % 0x1000 = 0 by decide, Nat.le_refl _,
    show kHeapBottom.toNat ≤ kHeapMax.toNat by decide, books.unlocked⟩

theorem last_fromBottom (books : Booked h) : FromBottom h.kLastAlloc := by
  refine Or.inr ?_
  rw [le_def, books.last]
  exact Nat.le_add_right _ _

theorem with_chain (books : Booked h) {chain : List U32} {top : U32} {notes : List HeapNote}
    (same : sizes chain = sizes h.chain) :
    Booked { chain, kHeapTop := top, kLastAlloc := h.kLastAlloc, memlock := false, notes, world } :=
  ⟨by rw [same]; exact books.last, rfl⟩

/-- The last address once a block of `n` bytes is at the end. -/
theorem last_append (books : Booked h) (fits : h.kLastAlloc.toNat + n.toNat < 2 ^ 32) :
    (h.kLastAlloc + n).toNat =
      kHeapBottom.toNat + (sizes (h.chain ++ [markUsed (blockSize n)])).sum := by
  rw [toNat_add, Nat.mod_eq_of_lt fits, sum_sizes_snoc, toNat_size_of_fits books.accounted fits,
    books.last, Nat.add_assoc]

theorem malloc (books : Booked h) (fits : SumsBelow (mallocSums n h))
    (done : Crunchy.malloc env n h = some (p, h')) : Booked h' ∧ FromBottom p := by
  cases malloc_outcome done with
  | zero => exact ⟨books, Or.inl rfl⟩
  | refused => exact ⟨books.with_chain rfl, Or.inl rfl⟩
  | @reuse i positive best low =>
    refine ⟨books.with_chain (sizes_set (blockSize_markUsed _)), Or.inr ?_⟩
    have address := toNat_translate books.accounted (Nat.le_of_lt best.1)
    rw [le_def, address]
    exact Nat.le_add_right _ _
  | new positive best room growth noted =>
    have search : findBestFree n h.chain = some none := by
      obtain ⟨found, search, fit⟩ := findBestFree_spec positive h.chain
      cases found with
      | none => exact search
      | some i => exact absurd fit.2.1 (best i fit.1)
    have sum := fits (h.kLastAlloc, n) (by
      rw [mallocSums, if_pos ⟨positive, search, room⟩]
      exact mem_singleton_self _)
    exact ⟨⟨books.last_append sum, rfl⟩, books.last_fromBottom⟩

theorem free (books : Booked h) (done : Crunchy.free ptr h = some (r, h')) : Booked h' := by
  rw [free_eq books.unlocked] at done
  cases done
  exact books.with_chain (sizes_freedChain ptr h)

theorem printf (books : Booked h) (fits : SumsBelow (mallocSums 256#32 h))
    (done : Crunchy.printf env h = some h') : Booked h' := by
  obtain ⟨buf, mid, allocated, rfl⟩ := printf_outcome done
  exact (books.malloc fits allocated).1.with_chain (sizes_freedChain buf mid)

theorem sbrk (books : Booked h) (fits : brk m h.kHeapTop = none → SumsBelow (mallocSums 256#32 h))
    (done : Crunchy.sbrk env (Crunchy.printf env) m h = some (r, h')) : Booked h' := by
  cases room : brk m h.kHeapTop with
  | some top =>
    obtain ⟨_, notes, equation, _⟩ := sbrk_eq_some env (Crunchy.printf env) room
    rw [equation] at done
    cases done
    exact ⟨books.last, books.unlocked⟩
  | none =>
    rw [sbrk_eq_full env room] at done
    obtain ⟨after, printed, done⟩ := bind_eq_some_iff.mp done
    cases done
    have noted : Booked { h with notes := .heapFull :: sumNotes m h.kHeapTop h.notes } :=
      ⟨books.last, books.unlocked⟩
    exact noted.printf (fits room) printed

/-- `translate` finds every block below `K_LAST_ALLOC`, so it reports nothing. -/
theorem translate (books : Booked h) (printf : Heap W → Option (Heap W))
    (inside : b ≤ h.chain.length) :
    Crunchy.translate printf b h = some (kHeapBottom + sizeBefore h.chain b, h) := by
  have address : (kHeapBottom + sizeBefore h.chain b).toNat =
      kHeapBottom.toNat + offset (sizes h.chain) b :=
    toNat_translate (h := { h with kHeapTop := kHeapBottom }) books.accounted inside
  have low : ¬h.kLastAlloc < kHeapBottom + sizeBefore h.chain b := by
    have before : offset (sizes h.chain) b ≤ (sizes h.chain).sum := by
      rw [← offset_length, length_sizes]
      exact offset_mono inside
    rw [lt_def, address, books.last]
    omega
  rw [Crunchy.translate, if_neg (Nat.not_lt.mpr inside)]
  exact if_neg low

/-- The padding, where its sum fits. -/
theorem padToPage (books : Booked h) {r : Bool} (fits : SumsBelow (padSums h))
    (done : Crunchy.padToPage env h = some (r, h')) : Booked h' := by
  rcases padToPage_cases done with ⟨_, _, rfl⟩ | ⟨_, _, rfl⟩ |
    ⟨off, _, ptr, mid, q, translated, freed⟩
  · exact ⟨books.last, books.unlocked⟩
  · exact ⟨books.last, books.unlocked⟩
  · have sum := fits (h.kLastAlloc, pageDiff h.kLastAlloc) (by
      rw [padSums, if_pos off]
      exact mem_singleton_self _)
    have padded : Booked (withPad h) := ⟨books.last_append sum, books.unlocked⟩
    rw [padded.translate _ (by simp [withPad])] at translated
    cases translated
    exact padded.free freed

theorem mallocA (books : Booked h) (fits : SumsBelow (mallocASums env n h))
    (done : Crunchy.mallocA env n h = some (p, h')) : Booked h' ∧ FromBottom p := by
  have padFits : SumsBelow (padSums h) := fun sum member => fits sum (mem_append_left _ member)
  obtain ⟨r, mid, padded, cases⟩ := mallocA_cases done
  have middle := books.padToPage padFits padded
  rcases cases with ⟨_, rfl, rfl⟩ | ⟨_, rfl, rfl⟩ | ⟨rfl, rfl, grown⟩
  · exact ⟨middle, Or.inl rfl⟩
  · exact ⟨⟨middle.last, middle.unlocked⟩, Or.inl rfl⟩
  · refine ⟨?_, middle.last_fromBottom⟩
    have room : mid.chain.length ≤ maxBlocks := by
      by_contra full
      rw [mallocA_eq, padded] at done
      simp only [bind_some, Bool.true_eq_false, if_false, if_pos (Nat.lt_of_not_le full),
        Option.some.injEq, Prod.mk.injEq] at done
      have isNull := congrArg BitVec.toNat done.1
      rw [middle.last] at isNull
      exact absurd isNull (Nat.ne_of_lt (Nat.lt_of_lt_of_le (by decide) (Nat.le_add_right _ _)))
    have sums : SumsBelow (blockSums n mid) := fun sum member => fits sum (by
      rw [mallocASums, padded]
      simp only [if_pos room]
      exact mem_append_right _ member)
    have sum := sums (mid.kLastAlloc, n) (mem_cons_self ..)
    have block : Booked (withBlock n mid) := ⟨middle.last_append sum, middle.unlocked⟩
    rcases grown with ⟨rfl, _⟩ | ⟨reaches, q, grown⟩
    · exact block
    · refine block.sbrk (fun full sum member => sums sum (mem_cons_of_mem _ ?_)) grown
      rw [if_pos ⟨reaches, full⟩]
      exact member

end Booked

/-! ### What the heap keeps of the machine -/

/-- Every effect of the heap on the machine keeps `holds`. -/
structure HeapEnv.Keeps (env : HeapEnv W) (holds : W → Prop) : Prop where
  mapHeapPage : ∀ top world, holds world → holds (env.mapHeapPage top world)
  memcpy : ∀ new old n world, holds world → holds (env.memcpy new old n world)
  formatInto : ∀ buf world, holds world → holds (env.formatInto buf world)

namespace HeapEnv.Keeps

variable {holds : W → Prop} {h h' : Heap W}

theorem backPages (keeps : env.Keeps holds) (k : Nat) : ∀ top world, holds world →
    holds (env.backPages k top world) := by
  induction k with
  | zero => exact fun _ _ before => before
  | succ k ih => exact fun _ _ before => ih _ _ (keeps.mapHeapPage _ _ before)

/-- What holds of the machine holds after every call of the heap. -/
theorem changes (keeps : env.Keeps holds) (changes : Changes env h h') (before : holds h.world) :
    holds h'.world := by
  induction changes with
  | refl => exact before
  | tail _ last ih =>
    cases last with
    | note => exact ih
    | chain => exact ih
    | grow top => exact keeps.backPages _ _ _ ih
    | format buf => exact keeps.formatInto buf _ ih
    | copy new old n => exact keeps.memcpy new old n _ ih

end HeapEnv.Keeps

end Crunchy
