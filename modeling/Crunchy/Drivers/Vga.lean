/-
Module: Crunchy.Drivers.Vga
Purpose: The text console of `kernel/drivers/vga.c`: its memory, the position of the
  next character and the cursor of the display.
Trusted boundary: human-reviewed spec
Main exports: Vga, vgaClear, vgaScroll, vgaKputc, vgaPutc, vgaPuts, Vga.cell
-/
import Crunchy.Strings
import Crunchy.Types

namespace Crunchy

open Lib

/-- The console. `memory` is the kernel's memory by address, `cursor` the cursor
location register of the display. A C `int` that is only counted with is an `Int`. -/
structure Vga where
  memory : Bytes
  currentX : Int
  currentY : Int
  currentAttrib : U32
  cursor : BitVec 16

/-- The address `VGA_MEMORY + offset`. -/
def vgaAddress (offset : Int) : Nat := (BitVec.ofInt 32 (0xC00B8000 + offset)).toNat

/-- `vga_move_cursor(x, y)`. The two ports take the higher and the lower byte. -/
def vgaMoveCursor (x y : BitVec 16) (v : Vga) : Vga :=
  let temp := y.toNat * 80 + x.toNat
  { v with cursor := BitVec.ofNat 8 (temp >>> 8) ++ BitVec.ofNat 8 temp }

/-- `vga_update_cursor()`. -/
def vgaUpdateCursor (v : Vga) : Vga :=
  vgaMoveCursor (BitVec.ofInt 16 (v.currentX.tdiv 2)) (BitVec.ofInt 16 v.currentY) v

/-- The loop of `vga_clear`, with the characters that are left and the address. -/
def vgaClearLoop (attrib : U32) : (left address : Nat) → Bytes → Bytes
  | 0, _, b => b
  | left + 1, address, b =>
    vgaClearLoop attrib left (address + 2)
      (put8 (put8 b address 0#8) (address + 1) (attrib.setWidth 8))

/-- `vga_clear()`. -/
def vgaClear (v : Vga) : Vga :=
  { v with
    memory := vgaClearLoop v.currentAttrib (80 * 25) (vgaAddress 0) v.memory
    currentY := 0
    currentX := 0 }

/-- `vga_scroll()`. The copy goes on for twice the length of the rows that are kept, the
words that are filled in are those of two rows. -/
def vgaScroll (v : Vga) : Vga :=
  vgaUpdateCursor <|
    if 25 ≤ v.currentY then
      let temp := (BitVec.ofInt 8 (v.currentY - 24)).toNat
      let moved := memcpy v.memory (vgaAddress 0) (vgaAddress (temp * 160))
        (BitVec.ofInt 32 ((25 - temp) * 160 * 2)).toNat
      let filled := memsetw moved (vgaAddress (24 * 160))
        ((v.currentAttrib <<< 8).setWidth 16) 160
      { v with memory := filled, currentY := 24 }
    else v

/-- `isascii(c)` of a `char`. -/
def isascii (c : BitVec 8) : Prop := 0 ≤ c.toInt ∧ c.toInt ≤ 127

instance (c : BitVec 8) : Decidable (isascii c) := inferInstanceAs (Decidable (_ ∧ _))

/-- `vga_kputc(c, x, y)`, where `x` counts bytes. -/
def vgaKputc (c : BitVec 8) (x y : Int) (v : Vga) : Vga :=
  if isascii c then
    { v with
      memory := put16 v.memory (vgaAddress (x + y * 160))
        ((c.setWidth 32 ||| v.currentAttrib <<< 8).setWidth 16) }
  else v

/-- The step to the next row that `vga_putc` has in two places. -/
def vgaWrap (v : Vga) : Vga :=
  if 160 ≤ v.currentX then { v with currentX := 0, currentY := v.currentY + 1 } else v

/-- `while (CURRENT_X % 16) CURRENT_X++`, for `left` rounds at most. -/
def tabLoop : (left : Nat) → (x : Int) → Int
  | 0, x => x
  | left + 1, x => if x.tmod 16 ≠ 0 then tabLoop left (x + 1) else x

/-- `vga_putc(c)`. -/
def vgaPutc (v : Vga) (c : BitVec 8) : Vga :=
  if c = 0x0A#8 then
    vgaScroll { v with currentY := v.currentY + 1, currentX := 0 }
  else if c = 0x08#8 then
    let v := { v with currentX := v.currentX - 2 }
    vgaKputc 0x20#8 v.currentX v.currentY v
  else if c = 0x09#8 then
    vgaWrap { v with currentX := tabLoop 15 v.currentX + 2 }
  else
    let v := vgaKputc c v.currentX v.currentY v
    vgaScroll (vgaWrap { v with currentX := v.currentX + 2 })

/-- `vga_puts(s)`. -/
def vgaPuts (v : Vga) (s : List (BitVec 8)) : Vga := s.foldl vgaPutc v

/-- The character in row `i` and column `j` of the screen. -/
def Vga.cell (v : Vga) (i j : Nat) : BitVec 8 := v.memory (vgaAddress (i * 160 + j * 2))

/-- The loop comes to a multiple of 16 that is at most `left` away. -/
theorem dvd_tabLoop {left k : Nat} {x : Int} (near : k ≤ left) (stop : (16 : Int) ∣ x + k) :
    (16 : Int) ∣ tabLoop left x := by
  induction left generalizing k x with
  | zero =>
    obtain rfl : k = 0 := Nat.le_zero.mp near
    rwa [Int.natCast_zero, Int.add_zero] at stop
  | succ left ih =>
    rw [tabLoop]
    split
    next goesOn =>
      obtain ⟨k, rfl⟩ : ∃ m, k = m + 1 := by
        apply Nat.exists_eq_succ_of_ne_zero
        rintro rfl
        rw [Int.natCast_zero, Int.add_zero] at stop
        exact goesOn (Int.tmod_eq_zero_of_dvd stop)
      apply ih (Nat.le_of_succ_le_succ near)
      rwa [show x + 1 + (k : Int) = x + ((k + 1 : Nat) : Int) by omega]
    next isStop => exact Int.dvd_of_tmod_eq_zero (not_not.mp isStop)

/-- Fifteen rounds are enough for a tab: the loop of the source ends. -/
theorem dvd_tab (x : Int) : (16 : Int) ∣ tabLoop 15 x :=
  dvd_tabLoop (show ((-x) % 16).toNat ≤ 15 by omega) (by omega)

end Crunchy
