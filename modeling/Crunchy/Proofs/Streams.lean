/-
Module: Crunchy.Proofs.Streams
Purpose: A stream as a tape: a list of bytes and a position on it. Every call is a step of the
  tape or leads off it, and the bounds of the stream hold along the runs that stay on the tape.
  `fputs` and `k_stream_write` are the same step.
Trusted boundary: none
Main exports: Tape, Tape.next, Holds, KeepsBounds, stream_bounds_iff, fputs_all_or_nothing
-/
import Crunchy.Lib.Bytes
import Crunchy.Stdio

namespace Crunchy

open List

variable {cs : List (BitVec 8)} {n : Nat} {call : StreamCall} {i k : U32}

/-! ### What is read and written -/

/-- Offset `k` is one of the `n` from `i` on. -/
def InWindow (i : U32) (n : Nat) (k : U32) : Prop := i.toNat ≤ k.toNat ∧ k.toNat < i.toNat + n

instance (i : U32) (n : Nat) (k : U32) : Decidable (InWindow i n k) :=
  inferInstanceAs (Decidable (_ ∧ _))

theorem not_inWindow_zero : ¬ InWindow i 0 k := by
  rw [InWindow]
  omega

theorem inWindow_succ (fits : i.toNat + (n + 1) ≤ 2 ^ 32) :
    InWindow i (n + 1) k ↔ k = i ∨ InWindow (i + 1#32) n k := by
  have next : (i + 1#32).toNat = (i.toNat + 1) % 2 ^ 32 := by
    rw [BitVec.toNat_add, BitVec.toNat_ofNat]
  rw [InWindow, InWindow, BitVec.toNat_eq]
  omega

theorem fits_succ (fits : i.toNat + (n + 1) ≤ 2 ^ 32) :
    (i + 1#32).toNat + n ≤ 2 ^ 32 := by
  rw [BitVec.toNat_add, BitVec.toNat_ofNat]
  omega

namespace Stream

variable {s : Stream} {cs : List (BitVec 8)} {i k : U32} {n : Nat}

@[simp] theorem storeAll_size : (s.storeAll cs i).size = s.size := by
  induction cs generalizing s i with
  | nil => rfl
  | cons c cs ih => exact ih

@[simp] theorem storeAll_offset : (s.storeAll cs i).offset = s.offset := by
  induction cs generalizing s i with
  | nil => rfl
  | cons c cs ih => exact ih

/-- The transfer does not look at the offset. -/
theorem storeAll_withOffset (o : U32) :
    { s with offset := o }.storeAll cs i = { s.storeAll cs i with offset := o } := by
  induction cs generalizing s i with
  | nil => rfl
  | cons c cs ih => exact ih (s := s.store i c)

/-- The bytes are stored from `data + i` on, and no other byte changes. -/
theorem storeAll_data (fits : i.toNat + cs.length ≤ 2 ^ 32) (k : U32) :
    (s.storeAll cs i).data k =
      if InWindow i cs.length k then cs.getD (k.toNat - i.toNat) 0#8 else s.data k := by
  induction cs generalizing s i with
  | nil => exact (if_neg not_inWindow_zero).symm
  | cons c cs ih =>
    rw [length_cons] at fits ⊢
    rw [storeAll, ih (fits_succ fits)]
    by_cases here : k = i
    · have notLater : ¬ InWindow (i + 1#32) cs.length k := by
        rw [InWindow, here, BitVec.toNat_add, BitVec.toNat_ofNat]
        omega
      rw [if_neg notLater, if_pos ((inWindow_succ fits).mpr (Or.inl here)), here, Nat.sub_self]
      exact if_pos rfl
    · by_cases later : InWindow (i + 1#32) cs.length k
      · have inside := (inWindow_succ fits).mpr (Or.inr later)
        have shift : k.toNat - i.toNat = (k.toNat - (i + 1#32).toNat) + 1 := by
          have low := later.1
          have low' := inside.1
          have other : k.toNat ≠ i.toNat := fun same => here (BitVec.eq_of_toNat_eq same)
          rw [BitVec.toNat_add, BitVec.toNat_ofNat] at low ⊢
          omega
        rw [if_pos later, if_pos inside, shift, getD_cons_succ]
      · rw [if_neg later, if_neg fun inside => ((inWindow_succ fits).mp inside).elim here later]
        exact if_neg here

theorem mem_storeAll_touched (fits : i.toNat + cs.length ≤ 2 ^ 32) :
    k ∈ (s.storeAll cs i).touched ↔ k ∈ s.touched ∨ InWindow i cs.length k := by
  induction cs generalizing s i with
  | nil => exact (or_iff_left not_inWindow_zero).symm
  | cons c cs ih =>
    rw [length_cons] at fits ⊢
    rw [storeAll, ih (fits_succ fits), store, mem_cons, inWindow_succ fits,
      or_comm (a := k = i), or_assoc]

/-- Reading leaves the stream as it is but for the record of what was read. -/
theorem loadAll_eq (n : Nat) (i : U32) (s : Stream) :
    ∃ touched, (s.loadAll n i).2 = { s with touched } ∧ s.touched ⊆ touched ∧
      (i.toNat + n ≤ 2 ^ 32 → ∀ k, k ∈ touched ↔ k ∈ s.touched ∨ InWindow i n k) := by
  induction n generalizing s i with
  | zero =>
    refine ⟨s.touched, rfl, List.Subset.refl _, fun _ k => ?_⟩
    exact (or_iff_left not_inWindow_zero).symm
  | succ n ih =>
    obtain ⟨touched, result, kept, log⟩ := ih (i + 1#32) (s.load i).2
    refine ⟨touched, result, fun k member => kept (mem_cons_of_mem _ member),
      fun fits k => ?_⟩
    rw [log (fits_succ fits), load, mem_cons, inWindow_succ fits, or_comm (a := k = i), or_assoc]

end Stream

/-! ### The tape -/

/-- A list of bytes and a position on it, or behind its last byte. -/
structure Tape where
  bytes : List (BitVec 8)
  position : Nat
  inside : position ≤ bytes.length

namespace Tape

/-- Other bytes in the place of those from `i` on. -/
def overwrite (t : Tape) (i : Nat) (cs : List (BitVec 8)) (room : i + cs.length ≤ t.bytes.length) :
    Tape where
  bytes := t.bytes.take i ++ cs ++ t.bytes.drop (i + cs.length)
  position := t.position
  inside := by
    have inside := t.inside
    simp only [List.length_append, List.length_take, List.length_drop]
    omega

/-- Another position. -/
def moveTo (t : Tape) (position : Nat) (inside : position ≤ t.bytes.length) : Tape :=
  { t with position, inside }

@[simp] theorem length_overwrite (t : Tape) {i : Nat} (room : i + cs.length ≤ t.bytes.length) :
    (t.overwrite i cs room).bytes.length = t.bytes.length := by
  simp only [overwrite, length_append, length_take, length_drop]
  omega

theorem getD_overwrite (t : Tape) {i : Nat} (room : i + cs.length ≤ t.bytes.length) (j : Nat) :
    (t.overwrite i cs room).bytes.getD j 0#8 =
      if i ≤ j ∧ j < i + cs.length then cs.getD (j - i) 0#8 else t.bytes.getD j 0#8 := by
  have front : (t.bytes.take i).length = i := length_take_of_le (by omega)
  show (t.bytes.take i ++ cs ++ t.bytes.drop (i + cs.length)).getD j 0#8 = _
  rw [append_assoc]
  by_cases early : j < i
  · rw [if_neg (by omega), getD_append _ _ _ _ (by omega)]
    simp [getD_eq_getElem?_getD, early]
  · rw [getD_append_right _ _ _ _ (by omega), front]
    by_cases within : j < i + cs.length
    · rw [if_pos (by omega), getD_append _ _ _ _ (by omega)]
    · rw [if_neg (by omega), getD_append_right _ _ _ _ (by omega)]
      simp only [getD_eq_getElem?_getD, getElem?_drop]
      congr 2
      omega

/-- Bytes at the position, where there is room for all of them. -/
def put (t : Tape) (cs : List (BitVec 8)) : Tape :=
  if room : t.position + cs.length ≤ t.bytes.length then
    (t.overwrite t.position cs room).moveTo (t.position + cs.length)
      (by rw [length_overwrite]; exact room)
  else t

theorem inside_of_mem (t : Tape) {c : BitVec 8} (found : c ∈ t.bytes.drop t.position) :
    t.position + (t.bytes.drop t.position).idxOf c ≤ t.bytes.length := by
  have before := idxOf_lt_length_of_mem found
  rw [length_drop] at before
  omega

/-- The tape after a call; `none` for a call that leads off it: a search for a byte that does
not come, a byte behind the end of the longest tape, and the position -1. -/
def next (t : Tape) : StreamCall → Option Tape
  | .write msg => some (t.put msg.bytes)
  | .read _ => some t
  | .readUntil c =>
    if found : c ∈ t.bytes.drop t.position then
      some (t.moveTo (t.position + (t.bytes.drop t.position).idxOf c) (t.inside_of_mem found))
    else none
  | .fputc c =>
    if t.position = t.bytes.length ∧ t.bytes.length = 2 ^ 31 - 1 then none
    else some (t.put [c])
  | .fputs c => some (t.put c.bytes)
  | .fgetc => some t
  | .fseek p =>
    if p = -1#32 then none
    else if inside : p.toNat < t.bytes.length then some (t.moveTo p.toNat (Nat.le_of_lt inside))
    else some t
  | .fflush =>
    some ((t.overwrite 0 (List.replicate t.bytes.length 0#8) (by simp)).moveTo 0
      (Nat.zero_le _))

end Tape

/-! ### The stream is the tape -/

/-- `0 <= offset <= size`. -/
def Bounded (s : Stream) : Prop := 0 ≤ s.offset.toInt ∧ s.offset.toInt ≤ s.size.toInt

/-- The offset is one of `data[0 .. size-1]`. -/
def Stream.Has (s : Stream) (i : U32) : Prop := 0 ≤ i.toInt ∧ i.toInt < s.size.toInt

/-- The offset is within its bounds, and so is every byte that was read or written. -/
def InBounds (s : Stream) : Prop := Bounded s ∧ ∀ i ∈ s.touched, s.Has i

/-- The stream holds the tape, and has touched no byte off it. -/
structure Holds (s : Stream) (t : Tape) : Prop where
  small : s.size.toNat < 2 ^ 31
  size : s.size.toNat = t.bytes.length
  offset : s.offset.toNat = t.position
  contents : ∀ i < t.bytes.length, s.data (BitVec.ofNat 32 i) = t.bytes.getD i 0#8
  touched : ∀ i ∈ s.touched, i.toNat < s.size.toNat

section Numbers

variable {s : Stream} {i n : U32}

theorem bounded_iff (small : s.size.toNat < 2 ^ 31) :
    Bounded s ↔ s.offset.toNat ≤ s.size.toNat := by
  rw [Bounded, toInt_of_small small, BitVec.toInt_eq_toNat_cond]
  split <;> omega

theorem has_iff (small : s.size.toNat < 2 ^ 31) : s.Has i ↔ i.toNat < s.size.toNat := by
  rw [Stream.Has, toInt_of_small small, BitVec.toInt_eq_toNat_cond]
  split <;> omega

theorem Bounded.small (bounded : Bounded s) : s.size.toNat < 2 ^ 31 := by
  obtain ⟨low, high⟩ := bounded
  rw [BitVec.toInt_eq_toNat_cond s.size] at high
  split at high <;> omega

/-- The test in front of a transfer, between the bounds. -/
theorem lacksRoom_iff (small : s.size.toNat < 2 ^ 31) (inside : s.offset.toNat ≤ s.size.toNat) :
    s.LacksRoom n ↔ s.size.toNat < s.offset.toNat + n.toNat := by
  rw [Stream.LacksRoom, BitVec.lt_def, BitVec.lt_def, BitVec.toNat_add]
  omega

end Numbers

namespace Holds

variable {s : Stream} {t : Tape}

theorem inside (holds : Holds s t) : s.offset.toNat ≤ s.size.toNat := by
  rw [holds.size, holds.offset]
  exact t.inside

theorem inBounds (holds : Holds s t) : InBounds s :=
  ⟨(bounded_iff holds.small).mpr holds.inside,
    fun i member => (has_iff holds.small).mpr (holds.touched i member)⟩

theorem moveTo (holds : Holds s t) {o : U32} (inside : o.toNat ≤ t.bytes.length) :
    Holds { s with offset := o } (t.moveTo o.toNat inside) :=
  ⟨holds.small, holds.size, rfl, holds.contents, holds.touched⟩

/-- Reading touches bytes and changes none. -/
theorem withTouched (holds : Holds s t) {touched : List U32}
    (inside : ∀ i ∈ touched, i.toNat < s.size.toNat) : Holds { s with touched } t :=
  ⟨holds.small, holds.size, holds.offset, holds.contents, inside⟩

theorem overwrite (holds : Holds s t) (i : U32) (cs : List (BitVec 8))
    (room : i.toNat + cs.length ≤ t.bytes.length) :
    Holds (s.storeAll cs i) (t.overwrite i.toNat cs room) := by
  have small := holds.small
  have size := holds.size
  have fits : i.toNat + cs.length ≤ 2 ^ 32 := by omega
  refine ⟨?_, ?_, ?_, fun j inside => ?_, fun k member => ?_⟩
  · rwa [Stream.storeAll_size]
  · rw [Stream.storeAll_size, Tape.length_overwrite]
    exact size
  · rw [Stream.storeAll_offset]
    exact holds.offset
  · have inOld : j < t.bytes.length := by rwa [Tape.length_overwrite] at inside
    have index : (BitVec.ofNat 32 j).toNat = j := by
      rw [BitVec.toNat_ofNat, Nat.mod_eq_of_lt (by omega)]
    simp only [Stream.storeAll_data fits, Tape.getD_overwrite, InWindow, index,
      holds.contents j inOld]
  · rw [Stream.storeAll_size]
    rcases (Stream.mem_storeAll_touched fits).mp member with old | new
    · exact holds.touched k old
    · have high := new.2
      omega

/-- A write that fits. -/
theorem stored (holds : Holds s t) (cs : List (BitVec 8))
    (room : t.position + cs.length ≤ t.bytes.length) :
    Holds { s.storeAll cs s.offset with offset := s.offset + BitVec.ofNat 32 cs.length }
      (t.put cs) := by
  have size := holds.size
  have offset := holds.offset
  have next : (s.offset + BitVec.ofNat 32 cs.length).toNat = t.position + cs.length := by
    rw [BitVec.toNat_add, BitVec.toNat_ofNat]
    omega
  have written := (holds.overwrite s.offset cs (by rw [offset]; exact room)).moveTo
    (o := s.offset + BitVec.ofNat 32 cs.length) (by rw [Tape.length_overwrite, next]; exact room)
  rw [Tape.put, dif_pos room]
  simp only [offset, next] at written
  exact written

end Holds

/-! ### `fputs` and `k_stream_write` -/

section Fputs

variable {s : Stream} {c : BitVec 8} {cs : List (BitVec 8)}

theorem fputc_eq (low : 0 ≤ s.offset.toInt) (room : s.offset.toInt < s.size.toInt) :
    fputc c s = (1, { s.store s.offset c with offset := s.offset + 1#32 }) := by
  have next := toInt_add_one room
  rw [fputc, if_neg (by omega)]
  rfl

/-- Between the bounds no `fputc` of the loop refuses its character. -/
theorem fputsLoop_eq (low : 0 ≤ s.offset.toInt)
    (room : s.offset.toInt + cs.length ≤ s.size.toInt) :
    fputsLoop cs s =
      { s.storeAll cs s.offset with offset := s.offset + BitVec.ofNat 32 cs.length } := by
  induction cs generalizing s with
  | nil =>
    rw [fputsLoop, length_nil, BitVec.add_zero]
    rfl
  | cons c cs ih =>
    rw [length_cons] at room ⊢
    have below : s.offset.toInt < s.size.toInt := by omega
    have next := toInt_add_one below
    have advanced : s.offset + 1#32 + BitVec.ofNat 32 cs.length =
        s.offset + BitVec.ofNat 32 (cs.length + 1) := by
      rw [BitVec.ofNat_add, BitVec.add_assoc, BitVec.add_comm (1#32)]
    rw [fputsLoop, fputc_eq low below, ih]
    · dsimp only
      rw [Stream.storeAll_withOffset, advanced]
      rfl
    · dsimp only
      omega
    · dsimp only [Stream.store]
      omega

/-- The test in front of a transfer of fewer than `2 ^ 32` bytes, over the integers. -/
theorem lacksRoom_iff_toInt (bounded : Bounded s) (short : cs.length < 2 ^ 32) :
    s.LacksRoom (BitVec.ofNat 32 cs.length) ↔
      s.size.toInt < s.offset.toInt + (cs.length : Int) := by
  have small := bounded.small
  have inside := (bounded_iff small).mp bounded
  have count : (BitVec.ofNat 32 cs.length).toNat = cs.length := by
    rw [BitVec.toNat_ofNat, Nat.mod_eq_of_lt short]
  rw [lacksRoom_iff small inside, count, toInt_of_small small, toInt_of_small (by omega)]
  omega

theorem fputs_eq_write (bounded : Bounded s) (short : cs.length < 2 ^ 32) :
    (fputs cs s).2 = (kStreamWrite cs s).2 := by
  rw [fputs, kStreamWrite]
  by_cases lacks : s.LacksRoom (BitVec.ofNat 32 cs.length)
  · rw [if_pos lacks, if_pos lacks]
  · rw [if_neg lacks, if_neg lacks]
    rw [lacksRoom_iff_toInt bounded short] at lacks
    dsimp only
    rw [fputsLoop_eq bounded.1 (by omega), Stream.storeAll_offset]

/-- `fputs` leaves the stream as `k_stream_write` does: with every character stored from the
old offset on, or as it was. -/
theorem fputs_all_or_nothing (bounded : Bounded s) (c : CText) :
    (fputs c.bytes s).2.data = (kStreamWrite c.bytes s).2.data ∧
    (fputs c.bytes s).2.offset = (kStreamWrite c.bytes s).2.offset ∧
    (s.offset.toInt + c.bytes.length ≤ s.size.toInt ∧
      (fputs c.bytes s).2.offset.toInt = s.offset.toInt + c.bytes.length ∧
      (∀ i, (inside : i < c.bytes.length) →
        (fputs c.bytes s).2.data (s.offset + BitVec.ofNat 32 i) = c.bytes[i]) ∧
      (∀ k, ¬ InWindow s.offset c.bytes.length k → (fputs c.bytes s).2.data k = s.data k) ∨
    s.size.toInt < s.offset.toInt + c.bytes.length ∧ (fputs c.bytes s).2 = s) := by
  have same := fputs_eq_write bounded c.short
  refine ⟨congrArg Stream.data same, congrArg Stream.offset same, ?_⟩
  have small := bounded.small
  have inside := (bounded_iff small).mp bounded
  have lacks_iff := lacksRoom_iff_toInt bounded c.short
  rw [fputs]
  by_cases lacks : s.LacksRoom (BitVec.ofNat 32 c.bytes.length)
  · rw [if_pos lacks]
    exact Or.inr ⟨lacks_iff.mp lacks, rfl⟩
  · have room : s.offset.toInt + c.bytes.length ≤ s.size.toInt := by
      rw [lacks_iff] at lacks
      omega
    rw [if_neg lacks, fputsLoop_eq bounded.1 room]
    dsimp only
    have sizeInt := toInt_of_small small
    have offsetInt := toInt_of_small (x := s.offset) (by omega)
    have fits : s.offset.toNat + c.bytes.length ≤ 2 ^ 32 := by omega
    refine Or.inl ⟨room, ?_, fun i before => ?_, fun k outside => ?_⟩
    · have moved : (s.offset + BitVec.ofNat 32 c.bytes.length).toNat =
          s.offset.toNat + c.bytes.length := by
        rw [BitVec.toNat_add, BitVec.toNat_ofNat]
        omega
      rw [toInt_of_small (by omega), moved, offsetInt]
      omega
    · have place : (s.offset + BitVec.ofNat 32 i).toNat = s.offset.toNat + i := by
        rw [BitVec.toNat_add, BitVec.toNat_ofNat]
        omega
      rw [Stream.storeAll_data fits, if_pos (by rw [InWindow]; omega), place,
        Nat.add_sub_cancel_left, getD_eq_getElem _ _ before]
    · rw [Stream.storeAll_data fits, if_neg outside]

/-- `"a"` in four bytes. -/
theorem letter_put :
    Bounded (kNewStream 4#32 fun _ => 0#8) ∧
      (fputs [97#8] (kNewStream 4#32 fun _ => 0#8)).2.data =
        (kStreamWrite [97#8] (kNewStream 4#32 fun _ => 0#8)).2.data :=
  ⟨⟨by decide, by decide⟩,
    (fputs_all_or_nothing ⟨by decide, by decide⟩ ⟨⟨[97#8], by decide⟩, by decide⟩).1⟩

end Fputs

/-! ### The other calls -/

namespace Holds

variable {s : Stream} {t : Tape}

theorem write (holds : Holds s t) (short : cs.length < 2 ^ 32) :
    Holds (kStreamWrite cs s).2 (t.put cs) := by
  have size := holds.size
  have offset := holds.offset
  have count : (BitVec.ofNat 32 cs.length).toNat = cs.length := by
    rw [BitVec.toNat_ofNat, Nat.mod_eq_of_lt short]
  have lacks_iff := lacksRoom_iff (n := BitVec.ofNat 32 cs.length) holds.small holds.inside
  rw [kStreamWrite]
  by_cases lacks : s.LacksRoom (BitVec.ofNat 32 cs.length)
  · rw [lacks_iff] at lacks
    rw [if_pos (lacks_iff.mpr lacks), Tape.put, dif_neg (by omega)]
    exact holds
  · rw [if_neg lacks]
    rw [lacks_iff] at lacks
    dsimp only
    rw [Stream.storeAll_offset]
    exact holds.stored cs (by omega)

/-- A transfer out of the stream touches bytes of the tape. -/
theorem loadAll (holds : Holds s t) (inside : i.toNat + n ≤ s.size.toNat) :
    Holds (s.loadAll n i).2 t := by
  obtain ⟨touched, result, _, log⟩ := Stream.loadAll_eq n i s
  rw [result]
  refine holds.withTouched fun k member => ?_
  rcases (log (by omega) k).mp member with old | new
  · exact holds.touched k old
  · have high := new.2
    omega

theorem read (holds : Holds s t) (n : U32) : Holds (kStreamRead n s).2 t := by
  rw [kStreamRead]
  split
  · exact holds
  · rename_i room
    rw [lacksRoom_iff holds.small holds.inside] at room
    exact holds.loadAll (by omega)

theorem getc (holds : Holds s t) : Holds (fgetc s).2 t := by
  have inside := holds.inside
  have small := holds.small
  rw [fgetc]
  split
  · rename_i behind
    rw [toInt_of_small (by omega)] at behind
    refine holds.withTouched fun k member => ?_
    rcases mem_cons.mp member with rfl | old
    · rw [BitVec.toNat_sub, BitVec.toNat_ofNat]
      omega
    · exact holds.touched k old
  · exact holds

theorem putc (holds : Holds s t) {c : BitVec 8}
    (short : ¬ (t.position = t.bytes.length ∧ t.bytes.length = 2 ^ 31 - 1)) :
    Holds (fputc c s).2 (t.put [c]) := by
  have inside := holds.inside
  have small := holds.small
  have size := holds.size
  have offset := holds.offset
  by_cases room : s.offset.toNat < s.size.toNat
  · rw [fputc_eq (by rw [toInt_of_small (by omega)]; omega)
      (by rw [toInt_of_small (by omega), toInt_of_small small]; omega)]
    exact holds.stored [c] (by rw [length_singleton]; omega)
  · have full : s.size.toInt < 1 ∨ s.size.toInt < (s.offset + 1#32).toInt := by
      have next : (s.offset + 1#32).toNat = s.offset.toNat + 1 := by
        rw [BitVec.toNat_add, BitVec.toNat_ofNat]
        omega
      rw [toInt_of_small small, toInt_of_small (by omega), next]
      omega
    rw [fputc, if_pos full, Tape.put, dif_neg (by rw [length_singleton]; omega)]
    exact holds

theorem seek (holds : Holds s t) {p : U32} (valid : p ≠ -1#32) :
    Holds (kStreamSeek p s).2
      (if inside : p.toNat < t.bytes.length then t.moveTo p.toNat (Nat.le_of_lt inside)
        else t) := by
  have small := holds.small
  have size := holds.size
  have other : p.toNat ≠ 2 ^ 32 - 1 := fun same => valid (BitVec.eq_of_toNat_eq same)
  have value := BitVec.toInt_eq_toNat_cond p
  rw [kStreamSeek]
  by_cases inside : p.toNat < t.bytes.length
  · rw [if_pos (by omega)] at value
    rw [dif_pos inside, if_neg (by omega), if_neg (by rw [toInt_of_small small]; omega)]
    exact holds.moveTo (Nat.le_of_lt inside)
  · have refused : p.toInt < -1 ∨ s.size.toInt ≤ p.toInt := by
      rw [toInt_of_small small]
      split at value <;> omega
    rw [dif_neg inside]
    split
    · exact holds
    · rename_i notLow
      rw [if_pos (refused.resolve_left notLow)]
      exact holds

theorem flush (holds : Holds s t) :
    Holds (fflush s).2 ((t.overwrite 0 (List.replicate t.bytes.length 0#8) (by simp)).moveTo 0
      (Nat.zero_le _)) := by
  have cleared := holds.overwrite 0#32 (List.replicate t.bytes.length 0#8) (by simp)
  have sought := cleared.seek (p := 0#32) (by decide)
  rw [fflush, fseek, holds.size]
  split at sought
  · exact sought
  · rename_i empty
    -- an empty stream refuses the position, which is 0 anyway
    have start : t.position = 0 := by
      have inside := t.inside
      rw [Tape.length_overwrite] at empty
      have none : ¬ 0 < t.bytes.length := empty
      omega
    have same : (t.overwrite 0 (List.replicate t.bytes.length 0#8) (by simp)).moveTo 0
        (Nat.zero_le _) = t.overwrite 0 (List.replicate t.bytes.length 0#8) (by simp) := by
      simp only [Tape.moveTo, Tape.overwrite, start]
    rw [same]
    exact sought

end Holds

/-! ### `k_stream_read_until` -/

section ReadUntil

variable {s : Stream} {c : BitVec 8} {k : Nat}

theorem readUntilLoop_size (c : BitVec 8) (count : Nat) (s : Stream) :
    (readUntilLoop c count s).2.size = s.size := by
  fun_induction readUntilLoop with
  | case1 _ _ _ ih => exact ih
  | case2 => rfl

theorem data_ofNat_succ (o : U32) (k : Nat) :
    o + 1#32 + BitVec.ofNat 32 k = o + BitVec.ofNat 32 (k + 1) := by
  rw [BitVec.ofNat_add, BitVec.add_assoc, BitVec.add_comm (1#32)]

/-- The search stops at the first `c`. -/
theorem readUntilLoop_found (count : Nat) (small : s.size.toNat < 2 ^ 31)
    (inside : s.offset.toNat + k < s.size.toNat)
    (before : ∀ j < k, s.data (s.offset + BitVec.ofNat 32 j) ≠ c)
    (found : s.data (s.offset + BitVec.ofNat 32 k) = c) :
    ∃ touched, readUntilLoop c count s =
        (count + k, { s with offset := s.offset + BitVec.ofNat 32 k, touched }) ∧
      ∀ i ∈ touched, i ∈ s.touched ∨ i.toNat ≤ s.offset.toNat + k := by
  induction k generalizing s count with
  | zero =>
    rw [BitVec.add_zero] at found
    refine ⟨s.offset :: s.touched, ?_, fun i member => ?_⟩
    · rw [readUntilLoop, dif_neg fun goesOn => goesOn.1 found, BitVec.add_zero]
      rfl
    · rcases mem_cons.mp member with rfl | old
      · exact Or.inr (Nat.le_refl _)
      · exact Or.inl old
  | succ k ih =>
    have here := before 0 (Nat.succ_pos k)
    rw [BitVec.add_zero] at here
    have below : s.offset.toInt < s.size.toInt := by
      rw [toInt_of_small (by omega), toInt_of_small small]
      omega
    have next : (s.offset + 1#32).toNat = s.offset.toNat + 1 := by
      rw [BitVec.toNat_add, BitVec.toNat_ofNat]
      omega
    obtain ⟨touched, result, log⟩ := ih (count + 1)
      (s := { (s.load s.offset).2 with offset := s.offset + 1#32 }) small
      (by dsimp only [Stream.load]; omega)
      (fun j inner => by
        dsimp only [Stream.load]
        rw [data_ofNat_succ]
        exact before (j + 1) (by omega))
      (by
        dsimp only [Stream.load]
        rw [data_ofNat_succ]
        exact found)
    refine ⟨touched, ?_, fun i member => ?_⟩
    · rw [readUntilLoop, dif_pos ⟨here, below⟩, result]
      dsimp only [Stream.load]
      rw [data_ofNat_succ, Nat.add_assoc, Nat.add_comm 1]
    · rcases log i member with old | new
      · rcases mem_cons.mp old with rfl | older
        · exact Or.inr (by omega)
        · exact Or.inl older
      · dsimp only [Stream.load] at new
        exact Or.inr (by omega)

/-- A search that finds nothing reads the byte behind the data. -/
theorem readUntilLoop_absent (count : Nat) (small : s.size.toNat < 2 ^ 31)
    (inside : s.offset.toNat + k = s.size.toNat)
    (absent : ∀ j < k, s.data (s.offset + BitVec.ofNat 32 j) ≠ c) :
    s.size ∈ (readUntilLoop c count s).2.touched := by
  induction k generalizing s count with
  | zero =>
    have atEnd : s.offset = s.size := BitVec.eq_of_toNat_eq inside
    rw [readUntilLoop, dif_neg fun goesOn => absurd goesOn.2 (by rw [atEnd]; omega)]
    exact mem_cons.mpr (Or.inl atEnd.symm)
  | succ k ih =>
    have here := absent 0 (Nat.succ_pos k)
    rw [BitVec.add_zero] at here
    have below : s.offset.toInt < s.size.toInt := by
      rw [toInt_of_small (by omega), toInt_of_small small]
      omega
    have next : (s.offset + 1#32).toNat = s.offset.toNat + 1 := by
      rw [BitVec.toNat_add, BitVec.toNat_ofNat]
      omega
    rw [readUntilLoop, dif_pos ⟨here, below⟩]
    refine ih (s := { (s.load s.offset).2 with offset := s.offset + 1#32 })
      (count + 1) small ?_ fun j inner => ?_
    · dsimp only [Stream.load]
      omega
    · dsimp only [Stream.load]
      rw [data_ofNat_succ]
      exact absent (j + 1) (by omega)

end ReadUntil

/-! ### One call -/

namespace Holds

variable {s : Stream} {t t' : Tape} {c : BitVec 8}

/-- The bytes from the offset on. -/
theorem data_from (holds : Holds s t) {j : Nat} (inside : t.position + j < t.bytes.length) :
    s.data (s.offset + BitVec.ofNat 32 j) = (t.bytes.drop t.position).getD j 0#8 := by
  have place : s.offset + BitVec.ofNat 32 j = BitVec.ofNat 32 (t.position + j) := by
    rw [← holds.offset, BitVec.ofNat_add, BitVec.ofNat_toNat, BitVec.setWidth_eq]
  rw [place, holds.contents _ inside]
  simp only [getD_eq_getElem?_getD, getElem?_drop]

theorem readUntil_found (holds : Holds s t) (found : c ∈ t.bytes.drop t.position)
    (inside : t.position + (t.bytes.drop t.position).idxOf c ≤ t.bytes.length) :
    Holds (kStreamReadUntil c s).2
      (t.moveTo (t.position + (t.bytes.drop t.position).idxOf c) inside) := by
  have small := holds.small
  have size := holds.size
  have offset := holds.offset
  have before := idxOf_lt_length_of_mem found
  have length := length_drop (i := t.position) (l := t.bytes)
  have others : ∀ j < (t.bytes.drop t.position).idxOf c,
      s.data (s.offset + BitVec.ofNat 32 j) ≠ c := by
    intro j early same
    rw [holds.data_from (by omega), getD_eq_getElem _ _ (by omega)] at same
    have other := not_of_lt_findIdx early
    rw [same, beq_self_eq_true] at other
    cases other
  have isFound : s.data (s.offset + BitVec.ofNat 32 ((t.bytes.drop t.position).idxOf c)) = c := by
    rw [holds.data_from (by omega), getD_eq_getElem?_getD, getElem?_idxOf found]
    rfl
  revert before others isFound inside
  generalize (t.bytes.drop t.position).idxOf c = k
  intro inside before others isFound
  obtain ⟨touched, result, log⟩ := readUntilLoop_found 0 small (by omega) others isFound
  have moved : (s.offset + BitVec.ofNat 32 k).toNat = t.position + k := by
    rw [BitVec.toNat_add, BitVec.toNat_ofNat]
    omega
  have back : s.offset + BitVec.ofNat 32 k - BitVec.ofNat 32 k = s.offset :=
    BitVec.add_sub_cancel _ _
  have searched : Holds { s with touched } t := by
    refine holds.withTouched fun i member => ?_
    rcases log i member with old | new
    · exact holds.touched i old
    · omega
  have held := searched.moveTo (o := s.offset + BitVec.ofNat 32 k) (by rw [moved]; exact inside)
  simp only [moved] at held
  rw [kStreamReadUntil, result]
  dsimp only
  rw [Nat.zero_add, back]
  exact held.loadAll (by dsimp only; omega)

theorem readUntil_absent (holds : Holds s t) (absent : c ∉ t.bytes.drop t.position) :
    ¬ InBounds (kStreamReadUntil c s).2 := by
  rintro ⟨_, touches⟩
  have small := holds.small
  have size := holds.size
  have offset := holds.offset
  have inside := t.inside
  have others : ∀ j < t.bytes.length - t.position,
      s.data (s.offset + BitVec.ofNat 32 j) ≠ c := by
    intro j early same
    have within : j < (t.bytes.drop t.position).length := by rwa [length_drop]
    rw [holds.data_from (by omega), getD_eq_getElem _ _ within] at same
    exact absent (same ▸ getElem_mem within)
  have behind := readUntilLoop_absent 0 small (by omega) others
  have sameSize := readUntilLoop_size c 0 s
  rw [kStreamReadUntil] at touches
  dsimp only at touches
  obtain ⟨touched, result, kept, _⟩ := Stream.loadAll_eq (readUntilLoop c 0 s).1
    ((readUntilLoop c 0 s).2.offset - BitVec.ofNat 32 (readUntilLoop c 0 s).1)
    (readUntilLoop c 0 s).2
  rw [result] at touches
  have has := touches s.size (kept behind)
  rw [has_iff (by dsimp only; rwa [sameSize])] at has
  dsimp only at has
  rw [sameSize] at has
  exact Nat.lt_irrefl _ has

/-- The longest stream overflows when a byte is put behind its end. -/
theorem putc_behind (holds : Holds s t) (atEnd : t.position = t.bytes.length)
    (longest : t.bytes.length = 2 ^ 31 - 1) : ¬ InBounds (fputc c s).2 := by
  rintro ⟨_, touches⟩
  have small := holds.small
  have size := holds.size
  have offset := holds.offset
  have overflow : (s.offset + 1#32).toInt = -2 ^ 31 := by
    have value : s.offset = 0x7FFFFFFF#32 :=
      BitVec.eq_of_toNat_eq (by rw [offset, atEnd, longest]; rfl)
    rw [value]
    decide
  rw [fputc, if_neg (by rw [overflow, toInt_of_small small]; omega)] at touches
  have has : s.offset.toNat < s.size.toNat :=
    (has_iff (s := { s.store s.offset c with offset := s.offset + 1#32 }) small).mp
      (touches s.offset mem_cons_self)
  omega

/-- The position -1. -/
theorem seek_behind (holds : Holds s t) : ¬ InBounds (kStreamSeek (-1#32) s).2 := by
  rintro ⟨bounded, _⟩
  have value : (-1#32 : U32).toInt = -1 := by decide
  rw [kStreamSeek, if_neg (by decide), if_neg (by rw [value, toInt_of_small holds.small]; omega)]
    at bounded
  have low := bounded.1
  dsimp only at low
  omega

/-- A call that stays on the tape. -/
theorem stays (holds : Holds s t) (isNext : t.next call = some t') :
    Holds (s.call call) t' := by
  cases call with
  | write msg =>
    cases isNext
    exact holds.write msg.short
  | read n =>
    cases isNext
    exact holds.read n
  | readUntil c =>
    rw [Tape.next] at isNext
    split at isNext
    · rename_i found
      cases isNext
      exact holds.readUntil_found found _
    · cases isNext
  | fputc c =>
    rw [Tape.next] at isNext
    split at isNext
    · cases isNext
    · rename_i short
      cases isNext
      exact holds.putc short
  | fputs c =>
    cases isNext
    have bounded := holds.inBounds.1
    rw [Stream.call, fputs_eq_write bounded c.short]
    exact holds.write c.short
  | fgetc =>
    cases isNext
    exact holds.getc
  | fseek p =>
    rw [Tape.next] at isNext
    split at isNext
    · cases isNext
    · rename_i valid
      have sought := holds.seek valid
      split at isNext
      · rename_i inside
        cases isNext
        rwa [dif_pos inside] at sought
      · rename_i outside
        cases isNext
        rwa [dif_neg outside] at sought
  | fflush =>
    cases isNext
    exact holds.flush

/-- A call that leads off the tape. -/
theorem leaves (holds : Holds s t) (isOff : t.next call = none) :
    ¬ InBounds (s.call call) := by
  cases call with
  | write | read | fputs | fgetc | fflush => cases isOff
  | readUntil c =>
    rw [Tape.next] at isOff
    split at isOff
    · cases isOff
    · rename_i absent
      exact holds.readUntil_absent absent
  | fputc c =>
    rw [Tape.next] at isOff
    split at isOff
    · rename_i atEnd
      exact holds.putc_behind atEnd.1 atEnd.2
    · cases isOff
  | fseek p =>
    rw [Tape.next] at isOff
    split at isOff
    · rename_i isBehind
      rw [isBehind]
      exact holds.seek_behind
    · split at isOff <;> cases isOff

end Holds

/-! ### Runs -/

/-- After each call the bounds hold. -/
def KeepsBounds : Stream → List StreamCall → Prop
  | _, [] => True
  | s, call :: calls => InBounds (s.call call) ∧ KeepsBounds (s.call call) calls

/-- The tape of a new stream. -/
def Tape.start (n : U32) (data : U32 → BitVec 8) : Tape where
  bytes := (List.range n.toNat).map fun i => data (BitVec.ofNat 32 i)
  position := 0
  inside := Nat.zero_le _

/-- No call leads off the tape. -/
def StaysOnTape (t : Tape) (calls : List StreamCall) : Prop :=
  (calls.foldlM Tape.next t).isSome

theorem Holds.start {n : U32} (small : n.toNat < 2 ^ 31) (data : U32 → BitVec 8) :
    Holds (kNewStream n data) (Tape.start n data) where
  small := small
  size := by simp [kNewStream, Tape.start]
  offset := rfl
  contents i inside := by
    rw [getD_eq_getElem _ _ inside]
    simp [kNewStream, Tape.start]
  touched := nofun

theorem Holds.keepsBounds_iff {s : Stream} {t : Tape} (holds : Holds s t)
    (calls : List StreamCall) : KeepsBounds s calls ↔ StaysOnTape t calls := by
  induction calls generalizing s t with
  | nil => exact iff_of_true trivial rfl
  | cons call calls ih =>
    rw [KeepsBounds, StaysOnTape, foldlM_cons]
    cases isNext : t.next call with
    | none =>
      exact iff_of_false (fun keeps => holds.leaves isNext keeps.1) Bool.false_ne_true
    | some t' =>
      have stays := holds.stays isNext
      rw [and_iff_right stays.inBounds]
      exact ih stays

@[simp] theorem loadAll_size (n : Nat) (i : U32) (s : Stream) :
    (s.loadAll n i).2.size = s.size := by
  obtain ⟨_, result, _⟩ := Stream.loadAll_eq n i s
  rw [result]

theorem fputc_size (c : BitVec 8) (s : Stream) : (fputc c s).2.size = s.size := by
  rw [fputc]
  split <;> rfl

theorem fputsLoop_size (cs : List (BitVec 8)) (s : Stream) : (fputsLoop cs s).size = s.size := by
  induction cs generalizing s with
  | nil => rfl
  | cons c cs ih => exact (ih _).trans (fputc_size c s)

theorem kStreamSeek_size (p : U32) (s : Stream) : (kStreamSeek p s).2.size = s.size := by
  rw [kStreamSeek]
  split
  · rfl
  · split <;> rfl

/-- No call changes the size. -/
theorem Stream.call_size (s : Stream) (call : StreamCall) : (s.call call).size = s.size := by
  cases call with
  | write msg =>
    rw [Stream.call, kStreamWrite]
    split
    · rfl
    · exact Stream.storeAll_size
  | read n =>
    rw [Stream.call, kStreamRead]
    split
    · rfl
    · exact loadAll_size _ _ s
  | readUntil c => exact (loadAll_size _ _ _).trans (readUntilLoop_size c 0 s)
  | fputc c => exact fputc_size c s
  | fputs c =>
    rw [Stream.call, fputs]
    split
    · rfl
    · exact fputsLoop_size _ s
  | fgetc =>
    rw [Stream.call, fgetc]
    split <;> rfl
  | fseek p => exact kStreamSeek_size p s
  | fflush => exact (kStreamSeek_size _ _).trans Stream.storeAll_size

/-- From `k_new_stream(n)` on, the bounds hold after each call exactly when there is none, or
`n` is an `int` and no call leads off the tape. -/
theorem stream_bounds_iff (n : U32) (data : U32 → BitVec 8) (calls : List StreamCall) :
    KeepsBounds (kNewStream n data) calls ↔
      calls = [] ∨ n.toNat < 2 ^ 31 ∧ StaysOnTape (Tape.start n data) calls := by
  by_cases small : n.toNat < 2 ^ 31
  · rw [(Holds.start small data).keepsBounds_iff calls, and_iff_right small]
    refine (or_iff_right_of_imp ?_).symm
    rintro rfl
    rfl
  · cases calls with
    | nil => exact iff_of_true trivial (Or.inl rfl)
    | cons call calls =>
      refine iff_of_false (fun keeps => small ?_) ?_
      · have bound := keeps.1.1.small
        rwa [Stream.call_size] at bound
      · rintro (none | ⟨isInt, _⟩)
        · cases none
        · exact small isInt

/-- The position -1 is taken. -/
theorem seek_before_start :
    ¬ ∀ (n : U32) (data : U32 → BitVec 8) (calls : List StreamCall),
      KeepsBounds (kNewStream n data) calls := by
  intro keeps
  have bounds := (keeps 4#32 (fun _ => 0#8) [.fseek (-1#32)]).1
  exact (Holds.start (by decide) _).seek_behind bounds

end Crunchy
