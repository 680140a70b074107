/-
Module: Crunchy.Lib.TextBytes
Purpose: Text written into memory: a list of characters from an offset on, one piece
  behind the other, and what is inside and outside of it.
Trusted boundary: none
Main exports: writeText, writeText_inside, writeText_outside, writeText_append
-/
import Mathlib.Data.List.GetD
import Crunchy.Lib.Bytes

namespace Crunchy.Lib

/-- Write the characters `t` from offset `o` on. -/
def writeText (b : Bytes) (o : Nat) (t : List (BitVec 8)) : Bytes :=
  patch b o t.length fun i => t.getD i 0#8

variable {b : Bytes} {o i : Nat} {t u : List (BitVec 8)}

@[simp] theorem writeText_nil (b : Bytes) (o : Nat) : writeText b o [] = b := by
  funext k
  exact patch_outside (by simp; omega)

theorem writeText_inside (inside : i < t.length) : writeText b o t (o + i) = t.getD i 0#8 := by
  rw [writeText, patch_inside (Nat.le_add_right o i) (by omega), Nat.add_sub_cancel_left]

theorem writeText_outside (outside : i < o ∨ o + t.length ≤ i) : writeText b o t i = b i :=
  patch_outside outside

theorem put8_eq_writeText (b : Bytes) (o : Nat) (c : BitVec 8) :
    put8 b o c = writeText b o [c] := by
  funext k
  by_cases here : k = o
  · subst here
    rw [put8, writeText, patch_inside (by omega) (by omega), patch_inside (by omega) (by simp),
      Nat.sub_self, List.getD_cons_zero]
  · rw [put8, writeText, patch_outside (by omega), patch_outside (by simp; omega)]

/-- One text behind the other. -/
theorem writeText_append (b : Bytes) (o : Nat) (t u : List (BitVec 8)) :
    writeText (writeText b o t) (o + t.length) u = writeText b o (t ++ u) := by
  funext k
  have total : (t ++ u).length = t.length + u.length := List.length_append
  by_cases before : k < o
  · rw [writeText_outside (by omega), writeText_outside (by omega), writeText_outside (by omega)]
  obtain ⟨j, rfl⟩ : ∃ j, k = o + j := ⟨k - o, by omega⟩
  by_cases first : j < t.length
  · rw [writeText_outside (by omega), writeText_inside first, writeText_inside (by omega),
      List.getD_append _ _ _ _ first]
  obtain ⟨m, rfl⟩ : ∃ m, j = t.length + m := ⟨j - t.length, by omega⟩
  by_cases second : m < u.length
  · rw [← Nat.add_assoc, writeText_inside second, Nat.add_assoc, writeText_inside (by omega),
      List.getD_append_right _ _ _ _ (by omega), Nat.add_sub_cancel_left]
  · rw [writeText_outside (by omega), writeText_outside (by omega), writeText_outside (by omega)]

/-- A text of the same length in place of the first part of another. -/
theorem writeText_front (b : Bytes) (o : Nat) (v : List (BitVec 8)) (same : t.length = u.length) :
    writeText (writeText b o (t ++ v)) o u = writeText b o (u ++ v) := by
  funext k
  rw [← writeText_append b o t v, ← writeText_append b o u v, same]
  by_cases front : o ≤ k ∧ k < o + u.length
  · obtain ⟨j, rfl⟩ : ∃ j, k = o + j := ⟨k - o, by omega⟩
    rw [writeText_inside (by omega), writeText_outside (by omega), writeText_inside (by omega)]
  · rw [writeText_outside (by omega)]
    by_cases back : o + u.length ≤ k ∧ k < o + u.length + v.length
    · obtain ⟨j, rfl⟩ : ∃ j, k = o + u.length + j := ⟨k - (o + u.length), by omega⟩
      rw [writeText_inside (by omega), writeText_inside (by omega)]
    · rw [writeText_outside (by omega), writeText_outside (by omega), writeText_outside (by omega),
        writeText_outside (by omega)]

end Crunchy.Lib
