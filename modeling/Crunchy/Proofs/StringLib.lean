/-
Module: Crunchy.Proofs.StringLib
Purpose: What the comparisons and searches of `kernel/lib/string.c` tell.
Trusted boundary: none
Main exports: Tells, ComparesFront, FirstPair, comparisons_iff, searches_iff
-/
import Crunchy.Strings
import Mathlib.Data.List.GetD

namespace Crunchy

open Lib List

variable {memory : Bytes} {found : List (BitVec 8) → Bool} {i k left : Nat}

/-! ### Comparisons -/

/-- The sign of a result tells which of three cases there is. -/
structure Tells (result : Int) (below same above : Prop) : Prop where
  negative : result < 0 ↔ below
  zero : result = 0 ↔ same
  positive : 0 < result ↔ above

/-- A comparison of a string with as much of another one. -/
inductive ComparesFront : Int → List (BitVec 8) → List (BitVec 8) → Prop where
  | nil (b : List (BitVec 8)) : ComparesFront 0 [] b
  | longer {result : Int} (c : BitVec 8) (a : List (BitVec 8)) (positive : 0 < result) :
      ComparesFront result (c :: a) []
  | less {result : Int} {c d : BitVec 8} (a b : List (BitVec 8)) (below : c < d)
      (negative : result < 0) : ComparesFront result (c :: a) (d :: b)
  | greater {result : Int} {c d : BitVec 8} (a b : List (BitVec 8)) (above : d < c)
      (positive : 0 < result) : ComparesFront result (c :: a) (d :: b)
  | same {result : Int} {a b : List (BitVec 8)} (c : BitVec 8)
      (rest : ComparesFront result a b) : ComparesFront result (c :: a) (c :: b)

variable {a b : List (BitVec 8)} {c d : BitVec 8} {result : Int}

theorem not_prefix_of_ne (differ : c ≠ d) : ¬ (c :: a <+: d :: b ∧ c :: a ≠ d :: b) := by
  rintro ⟨front, _⟩
  exact differ (cons_prefix_cons.mp front).1

theorem Tells.of_cons (differ : c ≠ d)
    (below : result < 0 ↔ c < d) (zero : result ≠ 0) (above : 0 < result ↔ d < c) :
    Tells result (c :: a < d :: b) (c :: a = d :: b) (d :: b < c :: a) := by
  refine ⟨?_, ?_, ?_⟩
  · rw [cons_lt_cons_iff, below]
    simp [differ]
  · simp [zero, differ]
  · rw [cons_lt_cons_iff, above]
    simp [Ne.symm differ]

/-- It tells the order, except for a string that goes on behind the other one. -/
theorem ComparesFront.tells_iff (compares : ComparesFront result a b) :
    Tells result (a < b) (a = b) (b < a) ↔ ¬ (a <+: b ∧ a ≠ b) := by
  induction compares with
  | nil b =>
    cases b with
    | nil => exact iff_of_true ⟨by simp, by simp, by simp⟩ (by simp)
    | cons d b => exact iff_of_false (fun tells => by simpa using tells.negative) (by simp)
  | longer c a positive =>
    exact iff_of_true ⟨by simp; omega, by simp; omega, by simp; omega⟩ (by simp)
  | @less result c d a b below negative =>
    have differ : c ≠ d := fun equal => by simp [equal] at below
    have notAbove : ¬ d < c := fun above => by
      rw [BitVec.lt_def] at above below
      omega
    exact iff_of_true (.of_cons differ (iff_of_true negative below) (by omega)
      (iff_of_false (by omega) notAbove)) (not_prefix_of_ne differ)
  | @greater result c d a b above positive =>
    have differ : c ≠ d := fun equal => by simp [equal] at above
    have notBelow : ¬ c < d := fun below => by
      rw [BitVec.lt_def] at above below
      omega
    exact iff_of_true (.of_cons differ (iff_of_false (by omega) notBelow) (by omega)
      (iff_of_true positive above)) (not_prefix_of_ne differ)
  | same c rest ih =>
    simpa [cons_lt_cons_iff, cons_prefix_cons] using ih

/-- Two different characters decide. -/
theorem ComparesFront.of_ne (differ : c ≠ d) (below : c < d → result < 0)
    (above : d < c → 0 < result) : ComparesFront result (c :: a) (d :: b) := by
  rcases Nat.lt_or_gt_of_ne (mt BitVec.eq_of_toNat_eq differ) with less | greater
  · exact .less a b (BitVec.lt_def.mpr less) (below (BitVec.lt_def.mpr less))
  · exact .greater a b (BitVec.lt_def.mpr greater) (above (BitVec.lt_def.mpr greater))

/-! `strcmp` of the kernel, and that of `libc`. -/

theorem strncmpLoop_shift (s1 s2 : Bytes) (left i : Nat) :
    strncmpLoop s1 s2 left (i + 1) =
      strncmpLoop (fun k => s1 (k + 1)) (fun k => s2 (k + 1)) left i := by
  induction left generalizing i with
  | zero => rfl
  | succ left ih => rw [strncmpLoop, strncmpLoop, ih]

theorem strcmp_cons (c : BitVec 8) (a : List (BitVec 8)) (memory : Bytes) :
    strcmp (c :: a) memory =
      if c ≠ memory 0 then (c.toNat : Int) - (memory 0).toNat
      else strcmp a fun k => memory (k + 1) := by
  rw [strcmp, strncmp, length_cons, strncmpLoop, strncmpLoop_shift]
  rfl

theorem CString.tail (isString : CString memory (d :: b)) :
    CString (fun k => memory (k + 1)) b where
  chars j inside := isString.chars (j + 1) (by simpa using inside)
  terminated := isString.terminated
  noNul := fun inside => isString.noNul (mem_cons_of_mem d inside)

/-- The rest of a string that ends here. -/
theorem strcmp_compares (noNul : 0#8 ∉ a) (isString : CString memory b) :
    ComparesFront (strcmp a memory) a b := by
  induction a generalizing b memory with
  | nil => exact .nil b
  | cons c a ih =>
    rw [mem_cons, not_or] at noNul
    rw [strcmp_cons]
    cases b with
    | nil =>
      have stop : memory 0 = 0#8 := isString.terminated
      have positive : 0 < c.toNat :=
        Nat.pos_of_ne_zero fun zero => noNul.1 (BitVec.eq_of_toNat_eq zero.symm)
      rw [stop, if_pos (Ne.symm noNul.1)]
      exact .longer c a (by simpa using positive)
    | cons d b =>
      have first : memory 0 = d := isString.chars 0 (by simp)
      rw [first]
      by_cases differ : c ≠ d
      · rw [if_pos differ]
        apply ComparesFront.of_ne differ
        · intro below
          rw [BitVec.lt_def] at below
          omega
        · intro above
          rw [BitVec.lt_def] at above
          omega
      · rw [if_neg differ, ← not_not.mp differ]
        exact .same c (ih noNul.2 isString.tail)

theorem Libc.strcmp_cons (c : BitVec 8) (a b : List (BitVec 8)) (notNul : c ≠ 0#8) :
    Libc.strcmp (c :: a) b =
      if c ≠ b.headD 0#8 then if c < b.headD 0#8 then -1 else 1
      else Libc.strcmp a b.tail := by
  rw [Libc.strcmp, length_cons, Libc.strncmp, headD_cons, tail_cons, if_neg notNul, Libc.strcmp]

theorem Libc.strcmp_compares (noNul : 0#8 ∉ a) : ComparesFront (Libc.strcmp a b) a b := by
  induction a generalizing b with
  | nil => exact .nil b
  | cons c a ih =>
    rw [mem_cons, not_or] at noNul
    rw [Libc.strcmp_cons c a b (Ne.symm noNul.1)]
    cases b with
    | nil =>
      have positive : ¬ c < 0#8 := by simp [BitVec.lt_def]
      rw [headD_nil, if_pos (Ne.symm noNul.1), if_neg positive]
      exact .longer c a (by decide)
    | cons d b =>
      rw [headD_cons, tail_cons]
      by_cases differ : c ≠ d
      · rw [if_pos differ]
        apply ComparesFront.of_ne differ
        · intro below
          rw [if_pos below]
          decide
        · intro above
          have notBelow : ¬ c < d := by
            rw [BitVec.lt_def] at above ⊢
            omega
          rw [if_neg notBelow]
          decide
      · rw [if_neg differ, ← not_not.mp differ]
        exact .same c (ih noNul.2)

/-! `memcmp` compares up to the first pair of bytes that differ. -/

/-- The first two bytes that differ among the first `n` are in the relation. -/
def FirstPair (relation : BitVec 8 → BitVec 8 → Prop) (x y : Bytes) (n : Nat) : Prop :=
  ∃ i < n, (∀ j < i, x j = y j) ∧ x i ≠ y i ∧ relation (x i) (y i)

variable {x y : Bytes} {n : Nat}

theorem memcmpLoop_eq_of_first (start : i ≤ k) (stop : k < i + left)
    (before : ∀ j, i ≤ j → j < k → x j = y j) (differ : x k ≠ y k) :
    memcmpLoop x y left i = (x k).toNat - (y k).toNat := by
  induction left generalizing i with
  | zero => omega
  | succ left ih =>
    rw [memcmpLoop]
    rcases Nat.eq_or_lt_of_le start with rfl | later
    · rw [if_neg differ]
    · rw [if_pos (before i (Nat.le_refl i) later)]
      exact ih later (by omega) fun j low high => before j (by omega) high

theorem memcmpLoop_eq_of_same (same : ∀ j, i ≤ j → j < i + left → x j = y j) :
    memcmpLoop x y left i = (x (i + left)).toNat - (y (i + left)).toNat := by
  induction left generalizing i with
  | zero => rfl
  | succ left ih =>
    rw [memcmpLoop, if_pos (same i (Nat.le_refl i) (by omega)),
      ih fun j low high => same j (by omega) (by omega), Nat.add_right_comm,
      Nat.add_assoc]

/-- Where the first `n` bytes are the same, the bytes behind them decide. -/
theorem memcmp_of_same (same : ∀ i < n, x i = y i) :
    memcmp x y n = (x n).toNat - (y n).toNat := by
  rw [memcmp, memcmpLoop_eq_of_same fun j _ stop => same j (by omega), Nat.zero_add]

/-- The first place where two buffers differ. -/
theorem exists_first (differ : ∃ i < n, x i ≠ y i) :
    ∃ k < n, (∀ j < k, x j = y j) ∧ x k ≠ y k := by
  have found : ∃ k, k < n ∧ x k ≠ y k := differ
  refine ⟨Nat.find found, (Nat.find_spec found).1, fun j before => ?_, (Nat.find_spec found).2⟩
  have earlier := Nat.find_min found before
  have inside := (Nat.find_spec found).1
  by_contra other
  exact earlier ⟨by omega, other⟩

theorem memcmp_of_first (inside : k < n) (before : ∀ j < k, x j = y j) (differ : x k ≠ y k) :
    memcmp x y n = (x k).toNat - (y k).toNat :=
  memcmpLoop_eq_of_first (Nat.zero_le k) (by omega) (fun j _ stop => before j stop) differ

theorem firstPair_iff {relation : BitVec 8 → BitVec 8 → Prop} (inside : k < n)
    (before : ∀ j < k, x j = y j) (differ : x k ≠ y k) :
    FirstPair relation x y n ↔ relation (x k) (y k) := by
  constructor
  · rintro ⟨i, _, same, other, related⟩
    have isFirst : i = k := by
      rcases Nat.lt_trichotomy i k with early | rfl | late
      · exact absurd (before i early) other
      · rfl
      · exact absurd (same k late) differ
    rwa [isFirst] at related
  · exact fun related => ⟨k, inside, before, differ, related⟩

/-- `memcmp(x, y, n)` tells how the first `n` bytes compare. -/
def MemcmpTells (x y : Bytes) (n : Nat) : Prop :=
  Tells (memcmp x y n) (FirstPair (· < ·) x y n) (∀ i < n, x i = y i) (FirstPair (· > ·) x y n)

/-- The result does not depend on a byte at or behind index `n`. -/
def MemcmpStays (x y : Bytes) (n : Nat) : Prop :=
  ∀ x' y' : Bytes, (∀ i < n, x' i = x i ∧ y' i = y i) → memcmp x' y' n = memcmp x y n

theorem memcmpTells_of_differ (differ : ∃ i < n, x i ≠ y i) : MemcmpTells x y n := by
  obtain ⟨k, inside, before, other⟩ := exists_first differ
  have values : (x k).toNat ≠ (y k).toNat := mt BitVec.eq_of_toNat_eq other
  rw [MemcmpTells, memcmp_of_first inside before other]
  refine ⟨?_, ?_, ?_⟩
  · rw [firstPair_iff inside before other, BitVec.lt_def]
    omega
  · exact iff_of_false (by omega) fun same => other (same k inside)
  · rw [firstPair_iff inside before other, gt_iff_lt, BitVec.lt_def]
    omega

theorem memcmpTells_iff :
    MemcmpTells x y n ↔ (∃ i < n, x i ≠ y i) ∨ x n = y n := by
  by_cases differ : ∃ i < n, x i ≠ y i
  · exact iff_of_true (memcmpTells_of_differ differ) (Or.inl differ)
  · have same : ∀ i < n, x i = y i := fun i inside => by
      by_contra other
      exact differ ⟨i, inside, other⟩
    rw [or_iff_right differ, MemcmpTells, memcmp_of_same same]
    constructor
    · intro tells
      have zero := tells.zero.mpr same
      exact BitVec.eq_of_toNat_eq (by omega)
    · intro next
      have noPair : ∀ relation, ¬ FirstPair relation x y n := by
        rintro relation ⟨i, inside, _, other, _⟩
        exact other (same i inside)
      rw [next, Int.sub_self]
      exact ⟨iff_of_false (by decide) (noPair _), iff_of_true rfl same,
        iff_of_false (by decide) (noPair _)⟩

theorem memcmpStays_iff : MemcmpStays x y n ↔ ∃ i < n, x i ≠ y i := by
  constructor
  · intro stays
    by_contra none
    have same : ∀ i < n, x i = y i := fun i inside => by
      by_contra other
      exact none ⟨i, inside, other⟩
    -- another byte behind the first `n` gives another result
    have result : ∀ next : BitVec 8,
        memcmp (put8 x n next) (put8 y n 0#8) n = next.toNat := by
      intro next
      rw [memcmp_of_same]
      · simp [put8, patch]
      · intro i inside
        rw [put8, put8, patch_outside (by omega), patch_outside (by omega)]
        exact same i inside
    have kept : ∀ next : BitVec 8, memcmp (put8 x n next) (put8 y n 0#8) n = memcmp x y n := by
      intro next
      apply stays
      intro i inside
      exact ⟨patch_outside (by omega), patch_outside (by omega)⟩
    have zero := (result 0#8).symm.trans (kept 0#8)
    have one := (result 1#8).symm.trans (kept 1#8)
    exact absurd (zero.trans one.symm) (by decide)
  · intro differ x' y' agree
    obtain ⟨k, inside, before, other⟩ := exists_first differ
    have before' : ∀ j < k, x' j = y' j := fun j early => by
      obtain ⟨sameX, sameY⟩ := agree j (by omega)
      rw [sameX, sameY]
      exact before j early
    obtain ⟨sameX, sameY⟩ := agree k inside
    rw [memcmp_of_first inside before other,
      memcmp_of_first inside before' (by rwa [sameX, sameY]), sameX, sameY]

/-- `strcmp`, of the kernel and of `libc`, tells the order of two strings exactly when the first
is not the front of a longer second one. `memcmp` tells the order of the first `n` bytes exactly
when they differ or the bytes behind them are the same, and does not depend on these exactly
when the first `n` bytes differ. -/
theorem comparisons_iff {a b : List (BitVec 8)} {memory : Bytes} (noNul : 0#8 ∉ a)
    (isString : CString memory b) (x y : Bytes) (n : Nat) :
    (Tells (strcmp a memory) (a < b) (a = b) (b < a) ↔ ¬ (a <+: b ∧ a ≠ b)) ∧
    (Tells (Libc.strcmp a b) (a < b) (a = b) (b < a) ↔ ¬ (a <+: b ∧ a ≠ b)) ∧
    (MemcmpTells x y n ↔ (∃ i < n, x i ≠ y i) ∨ x n = y n) ∧
    (MemcmpStays x y n ↔ ∃ i < n, x i ≠ y i) :=
  ⟨(strcmp_compares noNul isString).tells_iff, (Libc.strcmp_compares noNul).tells_iff,
    memcmpTells_iff, memcmpStays_iff⟩

/-- A string in memory that is zero behind it. -/
theorem cstring_getD {s : List (BitVec 8)} (noNul : 0#8 ∉ s) :
    CString (fun i => s.getD i 0#8) s where
  chars _ inside := getD_eq_getElem _ _ inside
  terminated := getD_eq_default _ _ (Nat.le_refl _)
  noNul := noNul

/-- `"b"` and `"ab"`, and the first byte of `"b"` and `"ab"`. -/
theorem comparisons_b :
    Tells (strcmp [98#8] fun i => [97#8, 98#8].getD i 0#8) ([98#8] < [97#8, 98#8])
        ([98#8] = [97#8, 98#8]) ([97#8, 98#8] < [98#8]) ∧
      MemcmpTells (fun i => [98#8].getD i 0#8) (fun i => [97#8, 98#8].getD i 0#8) 1 ∧
      MemcmpStays (fun i => [98#8].getD i 0#8) (fun i => [97#8, 98#8].getD i 0#8) 1 := by
  obtain ⟨kernel, _, tells, stays⟩ := comparisons_iff (a := [98#8]) (b := [97#8, 98#8])
    (by decide) (cstring_getD (by decide)) (fun i => [98#8].getD i 0#8)
    (fun i => [97#8, 98#8].getD i 0#8) 1
  have differ : ∃ i < 1, [98#8].getD i 0#8 ≠ [97#8, 98#8].getD i 0#8 :=
    ⟨0, by decide, by decide⟩
  exact ⟨kernel.mpr (by decide), tells.mpr (Or.inl differ), stays.mpr differ⟩

/-- `strcmp("a", "ab")` is 0. -/
theorem strcmp_of_front :
    ¬ ((∀ (a b : List (BitVec 8)) (memory : Bytes), 0#8 ∉ a → CString memory b →
        Tells (strcmp a memory) (a < b) (a = b) (b < a)) ∧
      ∀ (x y : Bytes) (n : Nat), MemcmpTells x y n ∧ MemcmpStays x y n) := by
  rintro ⟨all, _⟩
  have tells := all [97#8] [97#8, 98#8] _ (by decide) (cstring_getD (by decide))
  exact absurd (tells.zero.mp (by decide)) (by decide)

/-! ### Searches -/

/-- The first of the places of a string, from its start on to its `NUL`, that has the property;
a place is the rest of the string from there on. -/
def firstPlace (found : List (BitVec 8) → Bool) (s : List (BitVec 8)) : Option (List (BitVec 8)) :=
  s.tails.find? found

/-- The character there is one of `delim`. -/
def startsIn (delim : List (BitVec 8)) (place : List (BitVec 8)) : Bool :=
  place.head?.any fun c => c ∈ delim

/-- The first of `n` bytes that is `c`. -/
def firstEqual (b : Bytes) (c : BitVec 8) (n : Nat) : Option Nat :=
  (List.range n).find? fun i => b i = c

variable {s delim needle : List (BitVec 8)}

theorem firstPlace_cons (found : List (BitVec 8) → Bool) (c : BitVec 8) (s : List (BitVec 8)) :
    firstPlace found (c :: s) = if found (c :: s) then some (c :: s) else firstPlace found s := by
  rw [firstPlace, tails_cons, find?_cons, firstPlace]
  cases found (c :: s) <;> rfl

theorem firstPlace_length {place : List (BitVec 8)} (isFirst : firstPlace found s = some place) :
    place.length ≤ s.length := by
  have member := mem_of_find?_eq_some isFirst
  exact ((mem_tails _ _).mp member).length_le

/-- A search that starts one place too late finds the first place exactly when that is not the
start. -/
theorem skips_start_iff (notEnd : found [] = false) :
    firstPlace found s.tail = firstPlace found s ↔ found s = false := by
  cases s with
  | nil => exact iff_of_true rfl notEnd
  | cons c s =>
    rw [tail_cons, firstPlace_cons]
    cases here : found (c :: s) with
    | false => exact iff_of_true rfl rfl
    | true =>
      refine iff_of_false (fun same => ?_) (by decide)
      have shorter := firstPlace_length same
      rw [length_cons] at shorter
      omega

theorem strpbrk_eq_firstPlace (noNul : 0#8 ∉ delim) :
    strpbrk s delim = firstPlace (startsIn delim) s.tail := by
  induction s with
  | nil => rfl
  | cons c s ih =>
    rw [strpbrk, ih, tail_cons]
    cases s with
    | nil =>
      have absent : (delim.any fun c => ([] : List (BitVec 8)).headD 0#8 = c) = false := by
        rw [any_eq_false]
        intro x inside same
        have isNul : 0#8 = x := of_decide_eq_true same
        exact noNul (isNul ▸ inside)
      rw [absent]
      rfl
    | cons d s =>
      have same : (delim.any fun c => (d :: s).headD 0#8 = c) = startsIn delim (d :: s) := by
        simp [startsIn, any_eq]
      rw [same, firstPlace_cons, tail_cons]

theorem strncmp_eq_zero_iff_starts (noNul : 0#8 ∉ needle) :
    strncmp (fun i => s.getD i 0#8) (fun i => needle.getD i 0#8) needle.length = 0 ↔
      needle <+: s := by
  rw [strncmp_eq_zero_iff, prefix_iff_getElem]
  constructor
  · intro agree
    have inside : needle.length ≤ s.length := by
      by_contra short
      have stop := agree s.length (by omega)
      rw [getD_eq_default _ _ (Nat.le_refl _),
        getD_eq_getElem _ _ (by omega : s.length < needle.length)] at stop
      exact noNul (stop ▸ getElem_mem _)
    refine ⟨inside, fun i below => ?_⟩
    have same := agree i below
    rw [getD_eq_getElem _ _ (by omega), getD_eq_getElem _ _ below] at same
    exact same.symm
  · rintro ⟨inside, agree⟩ i below
    rw [getD_eq_getElem _ _ (by omega), getD_eq_getElem _ _ below]
    exact (agree i below).symm

theorem strstr_eq_firstPlace (some : needle ≠ []) (noNul : 0#8 ∉ needle) :
    strstr s needle = firstPlace needle.isPrefixOf s.tail := by
  have atEnd : firstPlace needle.isPrefixOf [] = none := by
    cases needle with
    | nil => exact absurd rfl some
    | cons c needle => rfl
  induction s with
  | nil => exact atEnd.symm
  | cons c s ih =>
    have same : strncmp (fun i => s.getD i 0#8) (fun i => needle.getD i 0#8) needle.length = 0 ↔
        needle.isPrefixOf s = true := by
      rw [strncmp_eq_zero_iff_starts noNul, isPrefixOf_iff_prefix]
    rw [strstr, ih, tail_cons]
    simp only [same]
    cases s with
    | nil =>
      rw [tail_nil, atEnd, if_neg]
      cases needle with
      | nil => exact absurd rfl some
      | cons d needle => exact nofun
    | cons d s => rw [firstPlace_cons, tail_cons]

theorem memchrLoop_eq (b : Bytes) (c : BitVec 8) (n i : Nat) :
    memchrLoop b c n i = ((List.range' i n).find? fun j => b j = c).map (· + 1) := by
  induction n generalizing i with
  | zero => rfl
  | succ n ih =>
    rw [memchrLoop, range'_succ, find?_cons, ih]
    by_cases here : b i = c <;> simp [here]

theorem memchr_eq (b : Bytes) (c : BitVec 8) (n : Nat) :
    memchr b c n = (firstEqual b c n).map (· + 1) := by
  rw [memchr, memchrLoop_eq, firstEqual, range_eq_range']

/-- `strpbrk` and `strstr` find the first place exactly when it is not the start of the string,
and `memchr` exactly when there is none. -/
theorem searches_iff {delim needle : List (BitVec 8)} (delimNoNul : 0#8 ∉ delim)
    (some : needle ≠ []) (needleNoNul : 0#8 ∉ needle) (s : List (BitVec 8)) (b : Bytes)
    (c : BitVec 8) (n : Nat) :
    (strpbrk s delim = firstPlace (startsIn delim) s ↔ ∀ d ∈ s.head?, d ∉ delim) ∧
    (strstr s needle = firstPlace needle.isPrefixOf s ↔ ¬ needle <+: s) ∧
    (memchr b c n = firstEqual b c n ↔ ∀ i < n, b i ≠ c) := by
  refine ⟨?_, ?_, ?_⟩
  · rw [strpbrk_eq_firstPlace delimNoNul, skips_start_iff rfl, startsIn]
    cases s.head? <;> simp
  · have notEnd : needle.isPrefixOf [] = false := by
      cases needle with
      | nil => exact absurd rfl some
      | cons d needle => rfl
    rw [strstr_eq_firstPlace some needleNoNul, skips_start_iff notEnd,
      ← isPrefixOf_iff_prefix, Bool.not_eq_true]
  · rw [memchr_eq]
    have absent : firstEqual b c n = none ↔ ∀ i < n, b i ≠ c := by
      rw [firstEqual, find?_eq_none]
      simp
    rw [← absent]
    cases firstEqual b c n <;> simp

/-- `"a,b"` and its comma, `"ab"` in it, and `'a'` in no byte. -/
theorem searches_comma :
    strpbrk [97#8, 44#8, 98#8] [44#8] = some [44#8, 98#8] ∧
      strpbrk [97#8, 44#8, 98#8] [44#8] = firstPlace (startsIn [44#8]) [97#8, 44#8, 98#8] ∧
      strstr [97#8, 44#8, 98#8] [97#8, 98#8] =
        firstPlace [97#8, 98#8].isPrefixOf [97#8, 44#8, 98#8] ∧
      memchr (fun _ => 0#8) 97#8 3 = firstEqual (fun _ => 0#8) 97#8 3 := by
  obtain ⟨pbrk, str, chr⟩ := @searches_iff [44#8] [97#8, 98#8] (by decide) (by decide)
    (by decide) [97#8, 44#8, 98#8] (fun _ => 0#8) 97#8 3
  exact ⟨by decide, pbrk.mpr (by decide), str.mpr (by decide), chr.mpr (by decide)⟩

/-- `strpbrk(",", ",")` finds nothing. -/
theorem strpbrk_passes_start :
    ¬ ∀ (delim needle : List (BitVec 8)), delim ≠ [] → 0#8 ∉ delim → needle ≠ [] → 0#8 ∉ needle →
      ∀ (s : List (BitVec 8)) (b : Bytes) (c : BitVec 8) (n : Nat), 0#8 ∉ s →
        strpbrk s delim = firstPlace (startsIn delim) s ∧
        strstr s needle = firstPlace needle.isPrefixOf s ∧
        memchr b c n = firstEqual b c n := by
  intro all
  have first := (all [44#8] [44#8] (by decide) (by decide) (by decide) (by decide) [44#8]
    (fun _ => 0#8) 0#8 0 (by decide)).1
  exact absurd first (by decide)

end Crunchy
