/-
Module: Crunchy.Proofs.KsymFind
Purpose: Which symbol `ksym_find` returns: the one at the smallest distance below the
  address, where a distance of zero does not count and one across the end of the address
  space does.
Trusted boundary: none
Main exports: ksymAddress, distance, Candidate, Encloses, ksym_find_iff
-/
import Crunchy.Process.Ksyms

namespace Crunchy

open Lib

variable {table : Bytes} {addr : U32} {count i j left found : Nat} {closestDiff : Int}

/-! ### Distances -/

/-- `kernel_symbols[i].address`. -/
def ksymAddress (table : Bytes) (i : Nat) : U32 := get32 table (ksymSize * i + Ksym.address)

/-- How far the address is above symbol `i`, modulo `2 ^ 32`. -/
def distance (table : Bytes) (addr : U32) (i : Nat) : Nat := (addr - ksymAddress table i).toNat

/-- A symbol that the loop can take. -/
def Candidate (table : Bytes) (addr : U32) (i : Nat) : Prop :=
  0 < distance table addr i ∧ distance table addr i < 0x1000

instance (table : Bytes) (addr : U32) (i : Nat) : Decidable (Candidate table addr i) :=
  inferInstanceAs (Decidable (_ ∧ _))

theorem distance_below (below : ksymAddress table i ≤ addr) :
    distance table addr i = addr.toNat - (ksymAddress table i).toNat :=
  BitVec.toNat_sub_of_le below

theorem distance_above (above : ¬ ksymAddress table i ≤ addr) :
    addr.toNat < distance table addr i := by
  rw [BitVec.le_def] at above
  rw [distance, BitVec.toNat_sub]
  omega

/-- The signed test of the loop, in terms of the distance. -/
theorem toInt_in_range {x : U32} {closest : Int} (small : closest ≤ 0x1000) :
    (x.toInt < closest ∧ 0 < x.toInt) ↔ ((x.toNat : Int) < closest ∧ 0 < x.toNat) := by
  rw [BitVec.toInt_eq_toNat_cond]
  split <;> omega

/-! ### The loop -/

/-- What the loop has found among the first `i` symbols. -/
inductive Closest (table : Bytes) (addr : U32) (i : Nat) : (found : Nat) → (diff : Int) → Prop
  | nothing (none : ∀ j < i, ¬ Candidate table addr j) : Closest table addr i 0 0x1000
  | symbol {found : Nat} (seen : found < i) (candidate : Candidate table addr found)
      (least : ∀ j < i, Candidate table addr j →
        distance table addr found ≤ distance table addr j) :
      Closest table addr i found (distance table addr found)

theorem Closest.le (closest : Closest table addr i found closestDiff) : closestDiff ≤ 0x1000 := by
  cases closest with
  | nothing none => exact Int.le_refl _
  | symbol seen candidate least => exact Int.ofNat_le.mpr candidate.2.le

theorem Closest.le_distance (closest : Closest table addr i found closestDiff)
    (candidate : Candidate table addr j) (before : j < i) :
    closestDiff ≤ distance table addr j := by
  cases closest with
  | nothing none => exact absurd candidate (none j before)
  | symbol seen isCandidate least => exact Int.ofNat_le.mpr (least j before candidate)

/-- One round. -/
theorem Closest.step (closest : Closest table addr i found closestDiff) :
    Closest table addr (i + 1)
      (if (distance table addr i : Int) < closestDiff ∧ 0 < distance table addr i then i else found)
      (if (distance table addr i : Int) < closestDiff ∧ 0 < distance table addr i then
        (distance table addr i : Int) else closestDiff) := by
  have small := closest.le
  by_cases closer : (distance table addr i : Int) < closestDiff ∧ 0 < distance table addr i
  · rw [if_pos closer, if_pos closer]
    refine .symbol (Nat.lt_succ_self i) ⟨closer.2, by omega⟩ fun j before candidate => ?_
    rcases Nat.lt_succ_iff_lt_or_eq.mp before with earlier | rfl
    · have bound := closest.le_distance candidate earlier
      omega
    · exact Nat.le_refl _
  · rw [if_neg closer, if_neg closer]
    cases closest with
    | nothing none =>
      refine .nothing fun j before candidate => ?_
      rcases Nat.lt_succ_iff_lt_or_eq.mp before with earlier | rfl
      · exact none j earlier candidate
      · exact closer ⟨by have := candidate.2; omega, candidate.1⟩
    | symbol seen isCandidate least =>
      refine .symbol (by omega) isCandidate fun j before candidate => ?_
      rcases Nat.lt_succ_iff_lt_or_eq.mp before with earlier | rfl
      · exact least j earlier candidate
      · have positive := candidate.1
        omega

/-- The round in terms of the distance. -/
theorem ksymFindLoop_succ (small : closestDiff ≤ 0x1000) :
    ksymFindLoop table addr (left + 1) i found closestDiff =
      ksymFindLoop table addr left (i + 1)
        (if (distance table addr i : Int) < closestDiff ∧ 0 < distance table addr i then i
          else found)
        (if (distance table addr i : Int) < closestDiff ∧ 0 < distance table addr i then
          (distance table addr i : Int) else closestDiff) := by
  have test := toInt_in_range (x := addr - ksymAddress table i) small
  have round : ksymFindLoop table addr (left + 1) i found closestDiff =
      if (addr - ksymAddress table i).toInt < closestDiff ∧
          0 < (addr - ksymAddress table i).toInt then
        ksymFindLoop table addr left (i + 1) i (addr - ksymAddress table i).toInt
      else ksymFindLoop table addr left (i + 1) found closestDiff := rfl
  rw [round]
  by_cases closer : (distance table addr i : Int) < closestDiff ∧ 0 < distance table addr i
  · have exactly := toInt_of_small (x := addr - ksymAddress table i) (by rw [← distance]; omega)
    rw [if_pos (test.mpr closer), if_pos closer, if_pos closer, exactly, distance]
  · rw [if_neg (fun signed => closer (test.mp signed)), if_neg closer, if_neg closer]

/-- The whole loop. -/
theorem Closest.loop (closest : Closest table addr i found closestDiff) :
    ∃ diff, Closest table addr (i + left) (ksymFindLoop table addr left i found closestDiff)
      diff := by
  induction left generalizing i found closestDiff with
  | zero => exact ⟨closestDiff, closest⟩
  | succ left ih =>
    rw [ksymFindLoop_succ closest.le, show i + (left + 1) = i + 1 + left by omega]
    exact ih closest.step

/-! ### What is returned -/

/-- Symbol `i` has the greatest address that is not above `addr`. -/
structure Encloses (table : Bytes) (count : Nat) (addr : U32) (i : Nat) : Prop where
  inside : i < count
  below : ksymAddress table i ≤ addr
  greatest : ∀ j < count, ksymAddress table j ≤ addr → ksymAddress table j ≤ ksymAddress table i

/-- `kernel_symbols[i].name`. -/
def ksymNamePtr (i : Nat) : Nat := ksymSize * i + Ksym.name

theorem ksymNamePtr_inj {i j : Nat} : ksymNamePtr i = ksymNamePtr j ↔ i = j := by
  simp only [ksymNamePtr, ksymSize, Ksym.name]
  omega

theorem ksymFind_eq (table : Bytes) (count : Nat) (addr : U32) :
    ∃ found diff, Closest table addr count found diff ∧
      ksymFind ⟨some table, count⟩ addr = some (ksymNamePtr found) := by
  have start : Closest table addr 0 0 0x1000 := .nothing fun j before => absurd before (by omega)
  obtain ⟨diff, closest⟩ : ∃ diff, Closest table addr (0 + count)
      (ksymFindLoop table addr count 0 0 0x1000) diff := start.loop
  rw [Nat.zero_add] at closest
  exact ⟨_, diff, closest, rfl⟩

/-- The nearest candidate encloses the address, when the address is no symbol's own. -/
theorem Closest.encloses (closest : Closest table addr count found closestDiff)
    (apart : ∀ j < count, ksymAddress table j ≠ addr)
    (near : ∃ j < count, ksymAddress table j ≤ addr ∧
      addr.toNat ≤ (ksymAddress table j).toNat + 0xFFF) :
    Encloses table count addr found := by
  -- a symbol below the address is a positive distance away
  have positive : ∀ j < count, ksymAddress table j ≤ addr → 0 < distance table addr j := by
    intro j inside below
    have different : (ksymAddress table j).toNat ≠ addr.toNat :=
      fun same => apart j inside (BitVec.eq_of_toNat_eq same)
    have ordered := BitVec.le_def.mp below
    rw [distance_below below]
    omega
  obtain ⟨near, inside, below, close⟩ := near
  have isNear : Candidate table addr near := by
    refine ⟨positive near inside below, ?_⟩
    rw [distance_below below]
    omega
  cases closest with
  | nothing none => exact absurd isNear (none near inside)
  | symbol seen candidate least =>
    have ahead := least near inside isNear
    rw [distance_below below] at ahead
    have foundBelow : ksymAddress table found ≤ addr := by
      by_contra above
      have far := distance_above above
      omega
    refine ⟨seen, foundBelow, fun j inside' below' => ?_⟩
    by_contra higher
    rw [BitVec.not_le, BitVec.lt_def] at higher
    have ordered := BitVec.le_def.mp below'
    have nearer : distance table addr j < distance table addr found := by
      rw [distance_below below', distance_below foundBelow]
      omega
    have isCandidate : Candidate table addr j :=
      ⟨positive j inside' below', Nat.lt_trans nearer candidate.2⟩
    exact absurd (least j inside' isCandidate) (Nat.not_le.mpr nearer)

/-- An address at most 0xFFF above some symbol gets the name of the symbol with the greatest
address not above it, exactly when it is no symbol's own address, or that of the first symbol
while no symbol is less than 0x1000 below, counted around the end of the address space. -/
theorem ksym_find_iff (table : Bytes) (count : Nat) (addr : U32)
    (near : ∃ j < count, ksymAddress table j ≤ addr ∧
      addr.toNat ≤ (ksymAddress table j).toNat + 0xFFF) :
    (∃ i, Encloses table count addr i ∧
        ksymFind ⟨some table, count⟩ addr = some (ksymNamePtr i)) ↔
      (∀ j < count, ksymAddress table j ≠ addr) ∨
        (ksymAddress table 0 = addr ∧ ∀ j < count, ¬ Candidate table addr j) := by
  obtain ⟨found, diff, closest, returns⟩ := ksymFind_eq table count addr
  rw [returns]
  constructor
  · rintro ⟨i, encloses, same⟩
    obtain rfl := ksymNamePtr_inj.mp (Option.some.inj same)
    by_cases own : ∃ j < count, ksymAddress table j = addr
    · obtain ⟨j, inside, isAddr⟩ := own
      have low := encloses.greatest j inside (BitVec.le_of_eq isAddr)
      have here : ksymAddress table found = addr :=
        BitVec.le_antisymm encloses.below (isAddr ▸ low)
      cases closest with
      | nothing none => exact .inr ⟨here, none⟩
      | symbol seen candidate least =>
        have zero : distance table addr found = 0 := by simp [distance, here]
        exact absurd candidate.1 (by omega)
    · push Not at own
      exact .inl own
  · rintro (apart | ⟨first, none⟩)
    · exact ⟨found, closest.encloses apart near, rfl⟩
    · cases closest with
      | nothing _ =>
        obtain ⟨j, inside, _⟩ := near
        refine ⟨0, ⟨by omega, BitVec.le_of_eq first, fun j inside below => ?_⟩, rfl⟩
        rw [first]
        exact below
      | symbol seen candidate least => exact absurd candidate (none found seen)

/-- Two symbols, at 0xC0100000 and 0xC0100010. -/
def twoSymbols : Bytes := put32 (put32 (fun _ => 0#8) 0 0xC0100000#32) 40 0xC0100010#32

theorem ksym_find_inside :
    ∃ i, Encloses twoSymbols 2 0xC0100014#32 i ∧
      ksymFind ⟨some twoSymbols, 2⟩ 0xC0100014#32 = some (ksymNamePtr i) :=
  (ksym_find_iff twoSymbols 2 0xC0100014#32 ⟨1, by decide⟩).mpr (.inl (by decide))

/-- At the start of the second function the first one is named. -/
theorem ksym_find_at_start :
    ¬ ∀ (table : Bytes) (count : Nat) (addr : U32),
      (∀ i < count, ∀ j < count, ksymAddress table i = ksymAddress table j → i = j) →
      (∃ j < count, ksymAddress table j ≤ addr ∧
        addr.toNat ≤ (ksymAddress table j).toNat + 0xFFF) →
      ∃ i, Encloses table count addr i ∧
        ksymFind ⟨some table, count⟩ addr = some (ksymNamePtr i) := by
  intro all
  obtain ⟨i, encloses, same⟩ := all twoSymbols 2 0xC0100010#32 (by decide) ⟨1, by decide⟩
  have first : ksymFind ⟨some twoSymbols, 2⟩ 0xC0100010#32 = some (ksymNamePtr 0) := by decide
  obtain rfl := ksymNamePtr_inj.mp (Option.some.inj (same.symm.trans first))
  exact absurd (encloses.greatest 1 (by decide) (by decide)) (by decide)

end Crunchy
