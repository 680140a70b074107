/-
Module: Crunchy.Proofs.HeapStrings
Purpose: Copies of strings, and `memmove` through a block of the heap: the exact conditions
  under which each keeps its promise.
Trusted boundary: none
Main exports: CopiesString, Duplicates, Moves, copies_iff, memmove_moves_iff
-/
import Crunchy.Mem.HeapStrings
import Crunchy.Proofs.HeapRealloc

namespace Crunchy

open Lib BitVec Option List

variable {env : HeapEnv Bytes}

variable {a i t : Nat} {n : U32}

/-! ### `strcpy` -/

/-- After `strcpy(dest, src)` the string at `dest` is `s`. -/
def CopiesString (b : Bytes) (dest src : Nat) (s : List (BitVec 8)) : Prop :=
  ∃ b', strcpy b dest src = some b' ∧ CString (fun i => b' (dest + i)) s

/-- The count that `strncpy` gets. -/
def copyCount (s : List (BitVec 8)) : Nat := s.length % 65536

/-- The characters that are copied do not run into each other, and what stands behind them at
the destination already is the rest of the string, with its `NUL`. -/
structure CopyFits (b : Bytes) (dest src : Nat) (s : List (BitVec 8)) : Prop where
  front : ∀ i < copyCount s, b (src + i % copyLag dest src (copyCount s)) = b (src + i)
  rest : CString (fun i => b (dest + (copyCount s + i))) (s.drop (copyCount s))

section Strcpy

variable {b : Bytes} {dest src : Nat} {s : List (BitVec 8)}

theorem copyCount_le (s : List (BitVec 8)) : copyCount s ≤ s.length := Nat.mod_le _ _

/-- `strcpy` is `memcpy` of the count. -/
theorem strcpy_eq_memcpy (source : CString (fun i => b (src + i)) s) (short : s.length < 2 ^ 32) :
    strcpy b dest src = some (memcpy b dest src (copyCount s)) := by
  have isLength := source.strlen_eq short
  have nonzero := (strlen_eq_some_iff.mp isLength).2.1
  have count : (BitVec.ofNat 16 s.length).toNat = copyCount s := toNat_ofNat _ 16
  have below := copyCount_le s
  rw [strcpy, isLength, map_some, strncpy_eq_memcpy fun j inside => nonzero j (by omega), count]

theorem copiesString_iff (source : CString (fun i => b (src + i)) s)
    (short : s.length < 2 ^ 32) : CopiesString b dest src s ↔ CopyFits b dest src s := by
  have below := copyCount_le s
  have copied : ∀ i < copyCount s, memcpy b dest src (copyCount s) (dest + i) =
      b (src + i % copyLag dest src (copyCount s)) := fun i inside => memcpy_at inside
  have behind : ∀ i ≤ (s.drop (copyCount s)).length,
      memcpy b dest src (copyCount s) (dest + (copyCount s + i)) =
        b (dest + (copyCount s + i)) := fun i _ => memcpy_outside (by omega)
  rw [CopiesString, strcpy_eq_memcpy source short]
  simp only [Option.some.injEq, exists_eq_left']
  rw [CString.split_iff source.noNul below, CString.congr behind]
  constructor
  · rintro ⟨front, rest⟩
    refine ⟨fun i inside => ?_, rest⟩
    rw [← copied i inside, front i inside]
    exact (source.chars i (by omega)).symm
  · rintro ⟨front, rest⟩
    refine ⟨fun i inside => ?_, rest⟩
    rw [copied i inside, front i inside]
    exact source.chars i (by omega)

end Strcpy

/-! ### `strdup` -/

/-- `strdup(s)` returns a string equal to `text` in a block with room for its `NUL`. -/
def Duplicates (env : HeapEnv Bytes) (s : U32) (text : List (BitVec 8)) (h : Heap Bytes) : Prop :=
  ∃ p h', strdup env s h = some (p, h') ∧ CString (fun i => h'.world (p.toNat + i)) text ∧
    ∃ i, Backs h'.chain i p (BitVec.ofNat 32 text.length) ∧
      text.length < (blockSize (chainWord h'.chain i)).toNat

/-- The block is a free one that is longer than the string, and `strcpy` fits there. -/
def ReusesRoom (s : U32) (text : List (BitVec 8)) (h : Heap Bytes) : Prop :=
  text ≠ [] ∧ ∃ i, takenBlock (BitVec.ofNat 32 text.length) h = some i ∧
    text.length < (blockSize (chainWord h.chain i)).toNat ∧
    CopyFits h.world (kHeapBottom + sizeBefore h.chain i).toNat s.toNat text

section Strdup

variable {h : Heap Bytes} {s : U32} {text : List (BitVec 8)}

/-- A block that `malloc` appends has no byte more than was asked for. -/
theorem not_roomy_appended (books : Accounted h) {w : U32} (size : (blockSize w).toNat ≤ n.toNat)
    (backs : Backs (h.chain ++ [w]) i h.kLastAlloc n) :
    (blockSize (chainWord (h.chain ++ [w]) i)).toNat ≤ n.toNat := by
  have last := books.last
  have inside := backs.inside
  have address := backs.address
  rw [length_append, length_singleton] at inside
  rcases Nat.lt_succ_iff_lt_or_eq.mp inside with old | new
  · -- an older block ends where the new one starts
    have bytes := backs.bytes
    have word : chainWord (h.chain ++ [w]) i = chainWord h.chain i := by
      simp [chainWord, getElem?_append_left old]
    have inSizes : i < (sizes h.chain).length := by rwa [length_sizes]
    have stop := end_le_sum inSizes
    rw [sizes_append, offset_append (Nat.le_of_lt inSizes)] at address
    rw [word] at bytes
    rw [getElem_sizes inSizes] at stop
    omega
  · subst new
    simpa [chainWord] using size

/-- `strdup` after its `malloc`. -/
theorem strdup_eq {p : U32} {mid : Heap Bytes}
    (source : CString (fun i => h.world (s.toNat + i)) text) (short : text.length < 2 ^ 32)
    (done : malloc env (BitVec.ofNat 32 text.length) h = some (p, mid)) :
    strdup env s h =
      (strcpy mid.world p.toNat s.toNat).map fun world => (p, { mid with world }) := by
  rw [strdup, source.strlen_eq short]
  simp only [bind_eq_bind, bind_some, done]
  cases strcpy mid.world p.toNat s.toNat <;> rfl

theorem findBestFree_of_taken (taken : takenBlock n h = some i) :
    findBestFree n h.chain = some (some i) :=
  join_eq_some_iff.mp taken

/-- In a free block the copy is that of `strcpy`, and the block may be longer. -/
theorem duplicates_reuse_iff (books : Accounted h)
    (source : CString (fun i => h.world (s.toNat + i)) text) (short : text.length < 2 ^ 32)
    (positive : BitVec.ofNat 32 text.length ≠ 0#32)
    (taken : takenBlock (BitVec.ofNat 32 text.length) h = some i) :
    Duplicates env s text h ↔ text.length < (blockSize (chainWord h.chain i)).toNat ∧
      CopyFits h.world (kHeapBottom + sizeBefore h.chain i).toNat s.toNat text := by
  have search := findBestFree_of_taken taken
  obtain ⟨found, found_eq, best⟩ := findBestFree_spec positive h.chain
  obtain rfl : some i = found := Option.some.inj (search.symm.trans found_eq)
  obtain ⟨inside, ⟨large, _⟩, _⟩ := best
  have done := malloc_reuse env positive books.unlocked search inside
  rw [if_neg (reused_low books inside)] at done
  have backs := Backs.reused books positive inside large
  have word : blockSize (chainWord (h.chain.set i (markUsed (chainWord h.chain i))) i) =
      blockSize (chainWord h.chain i) := by
    rw [chainWord_set fun _ => inside, if_pos rfl, blockSize_markUsed]
  constructor
  · rintro ⟨p, h', result, string, j, other, roomy⟩
    rw [strdup_eq source short done] at result
    obtain ⟨world, copied, isResult⟩ := map_eq_some_iff.mp result
    cases isResult
    obtain rfl : j = i := other.eq_of_start backs.inside backs.bytes backs.address
    rw [word] at roomy
    exact ⟨roomy, (copiesString_iff source short).mp ⟨world, copied, string⟩⟩
  · rintro ⟨roomy, fits⟩
    obtain ⟨world, copied, string⟩ := (copiesString_iff source short).mpr fits
    refine ⟨_, _, by rw [strdup_eq source short done, copied]; rfl, string, i, backs, ?_⟩
    rwa [word]

/-- Without a free block there is no room for the `NUL`. -/
theorem not_duplicates_of_none (books : Accounted h)
    (source : CString (fun i => h.world (s.toNat + i)) text) (short : text.length < 2 ^ 32)
    (taken : takenBlock (BitVec.ofNat 32 text.length) h = none) : ¬ Duplicates env s text h := by
  rintro ⟨p, h', result, _, i, backs, roomy⟩
  have count : (BitVec.ofNat 32 text.length).toNat = text.length := by
    rw [toNat_ofNat, Nat.mod_eq_of_lt short]
  rw [strdup, source.strlen_eq short] at result
  simp only [bind_eq_bind, bind_some] at result
  obtain ⟨⟨q, mid⟩, done, result⟩ := bind_eq_some_iff.mp result
  obtain ⟨world, _, isResult⟩ := bind_eq_some_iff.mp result
  cases isResult
  cases malloc_outcome done with
  | zero isZero => exact absurd backs.requested (by rw [isZero]; decide)
  | reuse positive best =>
    obtain ⟨found, search, bestFound⟩ := findBestFree_spec positive h.chain
    rw [takenBlock, search, join_some] at taken
    subst taken
    exact bestFound _ best.1 best.2.1
  | refused =>
    have address := backs.address
    exact ne_null_of_low (by dsimp only at address; omega) rfl
  | new =>
    have tight := not_roomy_appended books (by
      rw [blockSize_markUsed, blockSize_blockSize, toNat_blockSize]
      exact Nat.mod_le _ _) backs
    dsimp only at roomy
    omega

theorem duplicates_iff (books : Accounted h)
    (source : CString (fun i => h.world (s.toNat + i)) text) (short : text.length < 2 ^ 32) :
    Duplicates env s text h ↔ ReusesRoom s text h := by
  by_cases empty : text = []
  · subst empty
    refine iff_of_false ?_ fun fits => fits.1 rfl
    rintro ⟨_, _, _, _, _, backs, _⟩
    exact absurd backs.requested (by decide)
  · have positive : BitVec.ofNat 32 text.length ≠ 0#32 := by
      intro isZero
      have count := congrArg BitVec.toNat isZero
      rw [toNat_ofNat, Nat.mod_eq_of_lt short, toNat_ofNat] at count
      exact empty (eq_nil_of_length_eq_zero count)
    rw [ReusesRoom, and_iff_right empty]
    cases taken : takenBlock (BitVec.ofNat 32 text.length) h with
    | none =>
      refine iff_of_false (not_duplicates_of_none books source short taken) ?_
      rintro ⟨i, isTaken, _⟩
      cases isTaken
    | some i =>
      rw [duplicates_reuse_iff books source short positive taken]
      simp only [Option.some.injEq, exists_eq_left']

/-- `strcpy` copies, and in every state that is reached without an address sum that wraps
`strdup` duplicates, exactly under their conditions. -/
theorem copies_iff {text : List (BitVec 8)} (short : text.length < 2 ^ 32) :
    (∀ (b : Bytes) (dest src : Nat), CString (fun i => b (src + i)) text →
      (CopiesString b dest src text ↔ CopyFits b dest src text)) ∧
    ∀ (env : HeapEnv Bytes) (run : HeapRun Bytes),
      ((heapSystem env).within NoWrap).Reachable run →
      ∀ s : U32, CString (fun i => run.heap.world (s.toNat + i)) text →
        (Duplicates env s text run.heap ↔ ReusesRoom s text run.heap) :=
  ⟨fun _ _ _ source => copiesString_iff source short,
    fun _ _ reached _ source => duplicates_iff (Accounted.of_reachable reached) source short⟩

end Strdup

/-! ### `memmove` -/

/-- Backing a page of the heap shows in the bytes of that page and in the tables of the
pager. -/
def BacksOnly (env : HeapEnv Bytes) (tables : Nat → Prop) : Prop :=
  ∀ (a : U32) (b : Bytes) (x : Nat), ¬ tables x → x < a.toNat ∨ a.toNat + 0x1000 ≤ x →
    env.mapHeapPage a b x = b x

/-- The `n` bytes at `p` are memory that a caller may use: in the address space, outside the
tables of the pager, not in heap pages that are still to be backed, and in no free block. -/
structure CallerRange (tables : Nat → Prop) (h : Heap Bytes) (p n : U32) : Prop where
  fits : p.toNat + n.toNat ≤ 2 ^ 32
  ordinary : ∀ t < n.toNat, ¬ tables (p.toNat + t)
  backed : ∀ t < n.toNat, p.toNat + t < h.kHeapTop.toNat ∨ kHeapMax.toNat ≤ p.toNat + t
  taken : ∀ t < n.toNat, ∀ j, BlockByte h.chain j (p.toNat + t) →
    blockUsed (chainWord h.chain j) ≠ 0#32

/-- `malloc(n)` stays within the limits of the heap: it is asked for nothing, or returns a
pointer to `n` bytes below the top without an address sum that wraps. -/
def WithinLimits (env : HeapEnv Bytes) (n : U32) (h : Heap Bytes) : Prop :=
  n = 0#32 ∨ ∃ p h', malloc env n h = some (p, h') ∧ HeapNote.wrapped ∉ h'.notes ∧ p ≠ null ∧
    p.toNat + n.toNat ≤ h'.kHeapTop.toNat

/-- `memmove(s1, s2, n)` returns with the bytes of `s2` at `s1`, and every block that was in
use is marked used. -/
def Moves (env : HeapEnv Bytes) (s1 s2 n : U32) (h : Heap Bytes) : Prop :=
  ∃ h', memmove env s1 s2 n h = some (s1, h') ∧
    (∀ t < n.toNat, h'.world (s1.toNat + t) = h.world (s2.toNat + t)) ∧
    ∀ j < h.chain.length, blockUsed (chainWord h.chain j) ≠ 0#32 →
      blockUsed (chainWord h'.chain j) ≠ 0#32

/-- What the temporary block does no harm to. For no bytes it is `NULL`, and `free` clears the
used bit of the last entry of the chain. Otherwise it is a free block, or new and at the end
of the heap; then the bytes must come through the two copies over memory that is no block
yet. -/
def TempHarmless (s1 s2 n : U32) (h : Heap Bytes) : Prop :=
  if n = 0#32 then blockUsed (chainWord h.chain (h.chain.length - 1)) = 0#32
  else takenBlock n h = none → ∀ t < n.toNat,
    h.world (s2.toNat + t % copyLag s1.toNat h.kLastAlloc.toNat n.toNat %
      copyLag h.kLastAlloc.toNat s2.toNat n.toNat) = h.world (s2.toNat + t)

section Memmove

variable {tables : Nat → Prop} {h mid : Heap Bytes} {s1 s2 n p : U32}

theorem memmove_eq (done : malloc env n h = some (p, mid)) (unlocked : mid.memlock = false) :
    memmove env s1 s2 n h =
      some (s1, { mid with
        chain := freedChain p mid
        memlock := false
        world :=
          memcpy (memcpy mid.world p.toNat s2.toNat n.toNat) s1.toNat p.toNat n.toNat }) := by
  rw [memmove, done]
  simp only [bind_eq_bind, bind_some]
  rw [free_eq]
  · rfl
  · exact unlocked

/-- Out of the source and through the temporary block. -/
theorem memcpy_memcpy_at {b : Bytes} {dest temp src n : Nat} (inside : t < n) :
    memcpy (memcpy b temp src n) dest temp n (dest + t) =
      b (src + t % copyLag dest temp n % copyLag temp src n) := by
  rw [memcpy_at inside, memcpy_at (Nat.lt_of_le_of_lt (Nat.mod_le _ _) inside)]

/-- `free(NULL)` clears the used bit of the last entry. -/
theorem chainWord_freedChain_null (books : Accounted h) (j : Nat) :
    chainWord (freedChain null h) j =
      if j = h.chain.length - 1 then markFree (chainWord h.chain j) else chainWord h.chain j := by
  have known : ¬ h.kLastAlloc < null := by
    exact Nat.not_lt_zero _
  by_cases entries : h.chain = []
  · have same : freedChain null h = h.chain := by
      rw [freedChain, findBlock, if_neg known, entries]
      rfl
    have zero : ∀ i, chainWord ([] : List U32) i = 0#32 := fun i => rfl
    rw [same, entries, zero]
    exact (ite_self _).symm
  · have positive := length_pos_of_ne_nil entries
    rw [freedChain, findBlock_outside books entries (Or.inl (by decide)) known]
    rw [chainWord_set fun _ => by omega]
    split
    · rename_i isLast
      rw [isLast]
    · rfl

theorem moves_nothing_iff (books : Accounted h) :
    Moves env s1 s2 0#32 h ↔ blockUsed (chainWord h.chain (h.chain.length - 1)) = 0#32 := by
  have result : memmove env s1 s2 0#32 h = _ := memmove_eq (malloc_zero env h) books.unlocked
  have word := chainWord_freedChain_null books
  constructor
  · rintro ⟨h', returned, _, kept⟩
    rw [result] at returned
    cases returned
    by_cases entries : h.chain = []
    · rw [entries]
      decide
    · by_contra used
      have positive := length_pos_of_ne_nil entries
      refine kept _ (by omega) used ?_
      rw [word, if_pos rfl]
      exact blockUsed_markFree _
  · intro unused
    refine ⟨_, result, fun t none => absurd none (Nat.not_lt_zero t), fun j _ used => ?_⟩
    rw [word, if_neg]
    · exact used
    · rintro rfl
      exact used unused

/-- `malloc` leaves the bytes of a range in use alone. -/
theorem CallerRange.bytes (only : BacksOnly env tables) (books : Accounted h)
    (done : malloc env n h = some (p, mid)) (noWrap : HeapNote.wrapped ∉ mid.notes)
    (range : CallerRange tables h s2 n) (inside : t < n.toNat) :
    mid.world (s2.toNat + t) = h.world (s2.toNat + t) := by
  refine malloc_keeps (fun b => b (s2.toNat + t)) books done noWrap fun a b low high => ?_
  refine only a b _ (range.ordinary t inside) ?_
  have backed := range.backed t inside
  omega

/-- A free block lies apart from the bytes that are in use. -/
theorem CallerRange.apart (range : CallerRange tables h s2 n) (positive : n ≠ 0#32) {q : Nat}
    (unused : blockUsed (chainWord h.chain i) = 0#32)
    (block : ∀ t < n.toNat, BlockByte h.chain i (q + t)) :
    q + n.toNat ≤ s2.toNat ∨ s2.toNat + n.toNat ≤ q := by
  have some := Backs.requested_pos positive
  by_contra overlap
  rcases Nat.le_total q s2.toNat with before | behind
  · refine range.taken 0 some i ?_ unused
    have start : s2.toNat + 0 = q + (s2.toNat - q) := by omega
    rw [start]
    exact block _ (by omega)
  · refine range.taken (q - s2.toNat) (by omega) i ?_ unused
    have start : s2.toNat + (q - s2.toNat) = q + 0 := by omega
    rw [start]
    exact block 0 some

/-- A block that is not a free one is new, at the end of the heap. -/
theorem Served.pointer_of_none (served : Served n p a h mid) (books : Accounted h)
    (taken : takenBlock n h = none) : p = h.kLastAlloc := by
  obtain ⟨more, longer⟩ := served.sizes
  have isLast : a = h.chain.length := by
    rcases served.block with isTaken | ⟨_, isLast⟩
    · rw [taken] at isTaken
      cases isTaken
    · exact isLast
  apply eq_of_toNat_eq
  rw [served.backs.address, longer, isLast, books.last, ← length_sizes,
    offset_append (Nat.le_refl _), offset_length]

/-- A free block that is taken has been there before. -/
theorem Served.blockByte_of_some (served : Served n p a h mid) (taken : takenBlock n h ≠ none)
    (inside : t < n.toNat) :
    BlockByte h.chain a (p.toNat + t) := by
  obtain ⟨more, longer⟩ := served.sizes
  have entries := served.entries
  rw [entriesAfter, if_pos (isSome_iff_ne_none.mpr taken)] at entries
  have total := congrArg List.length longer
  rw [length_sizes, length_append, length_sizes] at total
  have none : more = [] := eq_nil_of_length_eq_zero (by omega)
  rw [none, append_nil] at longer
  refine (served.backs.blockByte ?_).of_sizes (longer.symm.trans (append_nil _).symm)
  exact Nat.lt_of_lt_of_le inside served.backs.fits

/-- No block in use is given up with the temporary one. -/
theorem Served.kept (served : Served n p a h mid) (grown : Accounted mid) {j : Nat}
    (inside : j < h.chain.length) (used : blockUsed (chainWord h.chain j) ≠ 0#32) :
    blockUsed (chainWord (freedChain p mid) j) ≠ 0#32 := by
  have backs := served.backs
  have other := served.ne_of_used inside used
  rw [freedChain, findBlock_of_covers grown.last (covers_chain backs.inside backs.bytes)
    backs.address]
  rw [chainWord_set fun _ => backs.inside, if_neg other, served.words j inside other]
  exact used

theorem moves_iff (only : BacksOnly env tables) (books : Accounted h) (positive : n ≠ 0#32)
    (done : malloc env n h = some (p, mid)) (noWrap : HeapNote.wrapped ∉ mid.notes)
    (given : p ≠ null) (source : CallerRange tables h s2 n) (target : CallerRange tables h s1 n) :
    Moves env s1 s2 n h ↔ TempHarmless s1 s2 n h := by
  obtain ⟨a, served⟩ := Served.of_malloc books positive done noWrap given
  have grown := books.malloc done noWrap
  have result : memmove env s1 s2 n h = _ := memmove_eq done grown.unlocked
  have bytes : ∀ t < n.toNat,
      memcpy (memcpy mid.world p.toNat s2.toNat n.toNat) s1.toNat p.toNat n.toNat (s1.toNat + t) =
        h.world (s2.toNat + t % copyLag s1.toNat p.toNat n.toNat %
          copyLag p.toNat s2.toNat n.toNat) := by
    intro t inside
    rw [memcpy_memcpy_at inside]
    refine source.bytes only books done noWrap ?_
    exact Nat.lt_of_le_of_lt ((Nat.mod_le _ _).trans (Nat.mod_le _ _)) inside
  have moves : Moves env s1 s2 n h ↔ ∀ t < n.toNat,
      h.world (s2.toNat + t % copyLag s1.toNat p.toNat n.toNat %
        copyLag p.toNat s2.toNat n.toNat) = h.world (s2.toNat + t) := by
    constructor
    · rintro ⟨h', returned, moved, _⟩ t inside
      rw [result] at returned
      cases returned
      exact (bytes t inside).symm.trans (moved t inside)
    · intro same
      refine ⟨_, result, fun t inside => (bytes t inside).trans (same t inside), ?_⟩
      exact fun j inside used => served.kept grown inside used
  rw [moves, TempHarmless, if_neg positive]
  by_cases taken : takenBlock n h = none
  · rw [served.pointer_of_none books taken]
    exact ⟨fun same _ => same, fun same => same taken⟩
  · refine iff_of_true (fun t inside => ?_) fun isNone => absurd isNone taken
    -- a free block is apart from both ranges, so that neither copy meets its own bytes
    have block := fun t (inside : t < n.toNat) => served.blockByte_of_some taken inside
    have unused := served.unused (length_sizes h.chain ▸ (block t inside).2.1)
    have out := le_copyLag (target.apart positive unused block).symm
    have into := le_copyLag (source.apart positive unused block)
    rw [Nat.mod_eq_of_lt (Nat.lt_of_lt_of_le inside out),
      Nat.mod_eq_of_lt (Nat.lt_of_lt_of_le inside into)]

/-- In every state that is reached without an address sum that wraps `memmove` does its work
exactly when its temporary block does no harm. -/
theorem memmove_moves_iff (only : BacksOnly env tables) {run : HeapRun Bytes}
    (reached : ((heapSystem env).within NoWrap).Reachable run)
    (limits : WithinLimits env n run.heap) (source : CallerRange tables run.heap s2 n)
    (target : CallerRange tables run.heap s1 n) :
    Moves env s1 s2 n run.heap ↔ TempHarmless s1 s2 n run.heap := by
  have books := Accounted.of_reachable reached
  by_cases isZero : n = 0#32
  · subst isZero
    rw [moves_nothing_iff books, TempHarmless, if_pos rfl]
  · obtain ⟨p, mid, done, noWrap, given, _⟩ := limits.resolve_left isZero
    exact moves_iff only books isZero done noWrap given source target

end Memmove

/-! ### On the machine with bytes -/

theorem ramEnv_backsOnly (tables : Nat → Prop) : BacksOnly ramEnv tables :=
  fun _ _ _ _ _ => rfl

/-- A fresh heap over any memory. -/
theorem kHeapInit_ramEnv (world : Bytes) :
    kHeapInit ramEnv world = some (filledOver world 0) := by
  rw [kHeapInit_eq]
  rfl

/-- One block of two bytes, with the word `w`. -/
def pairHeap (w : U32) (world : Bytes) : Heap Bytes where
  chain := [w]
  kHeapTop := 0xC0310000#32
  kLastAlloc := 0xC0300002#32
  memlock := false
  notes := []
  world := world

theorem malloc_pair (world : Bytes) :
    malloc ramEnv 2#32 (filledOver world 0) =
      some (kHeapBottom, pairHeap 0x80000002#32 world) := by
  have sums : SumsFit 2#32 (filledOver world 0) := by
    show SumsFit 2#32 (filledHeap 0)
    rw [SumsFit]
    decide
  obtain ⟨notes, done, noted⟩ := malloc_new ramEnv (n := 2#32) (h := filledOver world 0)
    (by decide) rfl (show findBestFree 2#32 (filledHeap 0).chain = some none by decide)
    (show (filledHeap 0).chain.length ≤ maxBlocks by decide)
    (show topAfter 2#32 (filledHeap 0) = some 0xC0310000#32 by decide)
  rw [done, noted.same sums, show (filledOver world 0).kHeapTop = 0xC0310000#32 from rfl,
    backTo_self]
  rfl

theorem free_pair (world : Bytes) :
    free kHeapBottom (pairHeap 0x80000002#32 world) =
      some (kHeapBottom, pairHeap 2#32 world) := by
  have freed : freedChain kHeapBottom (pairHeap 0x80000002#32 fun _ => 0#8) = [2#32] := by decide
  exact congrArg (fun chain => some (kHeapBottom, { pairHeap 2#32 world with chain })) freed

/-- A fresh heap, with two bytes in use, and with the two bytes given back. -/
theorem reachable_pair (world : Bytes) :
    ((heapSystem ramEnv).within NoWrap).Reachable { heap := filledOver world 0, live := [] } ∧
      (∃ live, ((heapSystem ramEnv).within NoWrap).Reachable
        { heap := pairHeap 0x80000002#32 world, live }) ∧
      ∃ live, ((heapSystem ramEnv).within NoWrap).Reachable
        { heap := pairHeap 2#32 world, live } := by
  have fresh : ((heapSystem ramEnv).within NoWrap).Reachable
      { heap := filledOver world 0, live := [] } :=
    .start ⟨⟨⟨world, kHeapInit_ramEnv world⟩, rfl⟩, not_mem_nil⟩
  have taken : ((heapSystem ramEnv).within NoWrap).Reachable
      { heap := pairHeap 0x80000002#32 world, live := _ } :=
    fresh.step ⟨.malloc (malloc_pair world), not_mem_nil⟩
  exact ⟨fresh, ⟨_, taken⟩, _, taken.step ⟨.free (free_pair world), not_mem_nil⟩⟩

/-- The string `"a"` at an address, in memory with another byte everywhere else. -/
def letterAt (address : Nat) (other : BitVec 8) : Bytes :=
  fun i => if i = address then 97#8 else if i = address + 1 then 0#8 else other

theorem cstring_letterAt (address : Nat) (other : BitVec 8) :
    CString (fun i => letterAt address other (address + i)) [97#8] := by
  refine ⟨fun j inside => ?_, ?_, by decide⟩
  · obtain rfl : j = 0 := Nat.lt_one_iff.mp inside
    exact if_pos rfl
  · exact (if_neg (by simp)).trans (if_pos rfl)

/-- In memory that is zero `"a"` is copied, and duplicated into two bytes that were given
back. -/
theorem letter_copied :
    CopiesString (letterAt 0x1000 0#8) 0x2000 0x1000 [97#8] ∧
      Duplicates ramEnv 0x1000#32 [97#8] (pairHeap 2#32 (letterAt 0x1000 0#8)) := by
  have source := cstring_letterAt 0x1000 0#8
  obtain ⟨_, _, live, reached⟩ := reachable_pair (letterAt 0x1000 0#8)
  have fits : ∀ dest, 0x1001 ≤ dest → CopyFits (letterAt 0x1000 0#8) dest 0x1000 [97#8] := by
    intro dest behind
    refine ⟨fun i (inside : i < 1) => ?_, nofun, ?_, by decide⟩
    · rw [Nat.lt_one_iff.mp inside, Nat.zero_mod]
    · show letterAt 0x1000 0#8 (dest + (1 + 0)) = 0#8
      rw [letterAt, if_neg (by omega)]
      exact ite_self _
  obtain ⟨copies, duplicates⟩ := copies_iff (show [97#8].length < 2 ^ 32 by decide)
  refine ⟨(copies _ _ _ source).mpr (fits _ (by decide)),
    (duplicates _ _ reached 0x1000#32 source).mpr ⟨by decide, 0, ?_, ?_, ?_⟩⟩
  · show (findBestFree 1#32 [2#32]).join = some 0
    decide
  · show 1 < (blockSize 2#32).toNat
    decide
  · exact fits (kHeapBottom + sizeBefore [2#32] 0).toNat (by decide)

/-- Behind the copy of `"a"` stands what was there before, and a fresh heap has no room for
the `NUL`. -/
theorem copy_unterminated :
    (¬ ∀ (b : Bytes) (dest src : Nat) (s : List (BitVec 8)), CString (fun i => b (src + i)) s →
      s.length < 2 ^ 32 → CopiesString b dest src s) ∧
    ¬ ∀ (env : HeapEnv Bytes) (run : HeapRun Bytes), (heapSystem env).Reachable run →
      ∀ (s : U32) (text : List (BitVec 8)),
        CString (fun i => run.heap.world (s.toNat + i)) text → text.length < 2 ^ 32 →
        Duplicates env s text run.heap := by
  have source := cstring_letterAt 0x1000 120#8
  constructor
  · intro copies
    have fits := (copiesString_iff source (by decide)).mp (copies _ 0x2000 _ _ source (by decide))
    have zero : letterAt 0x1000 120#8 0x2001 = 0#8 := fits.rest.terminated
    exact absurd zero (by decide)
  · intro duplicates
    have reached := (reachable_pair (letterAt 0x1000 120#8)).1
    have run : (heapSystem ramEnv).Reachable _ :=
      reached.mono (fun _ isStart => isStart.1) fun _ _ _ taken => taken.1
    exact not_duplicates_of_none (s := 0x1000#32) (Accounted.of_reachable reached) source
      (by decide) rfl (duplicates ramEnv _ run 0x1000#32 [97#8] source (by decide))

/-- Two bytes in low memory are moved up by one. -/
theorem two_bytes_moved_up :
    Moves ramEnv 0x1001#32 0x1000#32 2#32 (filledOver (fun i => BitVec.ofNat 8 i) 0) := by
  have heap := (reachable_pair fun i => BitVec.ofNat 8 i).1
  have low : ∀ p : U32, p.toNat + 2 ≤ kHeapBottom.toNat →
      CallerRange (fun _ => False) (filledOver (fun i => BitVec.ofNat 8 i) 0) p 2#32 := by
    intro p below
    have bottom : kHeapBottom.toNat ≤ 0xC0310000 := by decide
    refine ⟨?_, fun _ _ => not_false, fun t (inside : t < 2) => Or.inl ?_,
      fun t _ j has => absurd has.2.1 (Nat.not_lt_zero j)⟩
    · rw [toNat_kHeapBottom] at below
      show p.toNat + 2 ≤ _
      omega
    · show p.toNat + t < 0xC0310000
      omega
  refine (memmove_moves_iff (ramEnv_backsOnly _) heap ?_ (low _ (by decide))
    (low _ (by decide))).mpr ?_
  · refine Or.inr ⟨_, _, malloc_pair _, not_mem_nil, by decide, ?_⟩
    decide
  · rw [TempHarmless, if_neg (by decide)]
    intro _
    decide

/-- `memmove` of no bytes frees a block that is in use. -/
theorem nothing_moved_frees_block :
    ¬ ∀ (tables : Nat → Prop) (env : HeapEnv Bytes), BacksOnly env tables →
      ∀ run : HeapRun Bytes, (heapSystem env).Reachable run → ∀ s1 s2 n : U32,
        WithinLimits env n run.heap → CallerRange tables run.heap s2 n → CallerRange tables run.heap s1 n →
        Moves env s1 s2 n run.heap := by
  intro moves
  obtain ⟨_, ⟨live, reached⟩, _⟩ := reachable_pair fun _ => 0#8
  have nowhere : CallerRange (fun _ => False) (pairHeap 0x80000002#32 fun _ => 0#8) 0#32 0#32 :=
    ⟨by decide, nofun, nofun, nofun⟩
  have run : (heapSystem ramEnv).Reachable
      { heap := pairHeap 0x80000002#32 fun _ => 0#8, live } :=
    reached.mono (fun _ isStart => isStart.1) fun _ _ _ taken => taken.1
  have kept := moves _ ramEnv (ramEnv_backsOnly _) _ run 0#32 0#32 0#32 (Or.inl rfl) nowhere nowhere
  have unused := (moves_nothing_iff (Accounted.of_reachable reached)).mp kept
  dsimp only at unused
  exact absurd unused (by decide)

end Crunchy
