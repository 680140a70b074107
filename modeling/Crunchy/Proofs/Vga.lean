/-
Module: Crunchy.Proofs.Vga
Purpose: What the console shows of the text written to it: the last 25 rows of its
  layout. Each character is one step of the layout, and scrolling keeps what is shown.
Trusted boundary: none
Main exports: consoleLayout, Shows, Shows.vgaPutc, console_shows_tail
-/
import Crunchy.Drivers.Vga
import Crunchy.Lib.TextLayout

namespace Crunchy

open Lib BitVec List

variable {v : Vga} {c : BitVec 8} {i j top line column : Nat}

theorem vgaAddress_nat {offset : Nat} (near : offset < 0x10000) :
    vgaAddress offset = 0xC00B8000 + offset := by
  rw [vgaAddress, toNat_ofInt]
  omega

theorem cell_eq (v : Vga) (row : i < 25) (col : j < 80) :
    v.cell i j = v.memory (0xC00B8000 + (i * 160 + j * 2)) := by
  rw [Vga.cell, ← vgaAddress_nat (by omega)]
  rfl

/-! ### The character of a word -/

/-- The word of a blank has character 0. -/
theorem blank_low (attrib : U32) : ((attrib <<< 8).setWidth 16).setWidth 8 = 0#8 := by
  apply eq_of_getLsbD_eq
  intro k inside
  simp [inside]

theorem blank_high (attrib : U32) :
    (((attrib <<< 8).setWidth 16) >>> 8).setWidth 8 = attrib.setWidth 8 := by
  apply eq_of_getLsbD_eq
  intro k inside
  simp [inside, show 8 + k < 16 by omega]

theorem char_low (c : BitVec 8) (attrib : U32) :
    ((c.setWidth 32 ||| attrib <<< 8).setWidth 16).setWidth 8 = c := by
  apply eq_of_getLsbD_eq
  intro k inside
  simp [inside]

/-! ### One call -/

theorem vgaClearLoop_eq (attrib : U32) (left address : Nat) (b : Bytes) :
    vgaClearLoop attrib left address b =
      memsetw b address ((attrib <<< 8).setWidth 16) left := by
  induction left generalizing address b with
  | zero => rfl
  | succ left ih =>
    rw [vgaClearLoop, ih, memsetw, put16_eq_put8, blank_low, blank_high]

theorem cell_vgaClear (v : Vga) (row : i < 25) (col : j < 80) : (vgaClear v).cell i j = 0#8 := by
  have start : vgaAddress 0 = 0xC00B8000 := by decide
  have place : 0xC00B8000 + (i * 160 + j * 2) = 0xC00B8000 + 2 * (i * 80 + j) := by omega
  rw [cell_eq _ row col, vgaClear, place]
  dsimp only
  rw [vgaClearLoop_eq, start, memsetw_low (by omega), blank_low]

/-- Where `x` and `y` are those of a cell, only that cell changes. -/
theorem cell_vgaKputc (ascii : isascii c) (inLine : line < 25) (inColumn : column < 80)
    (row : i < 25) (col : j < 80) :
    (vgaKputc c (2 * column) line v).cell i j =
      if i = line ∧ j = column then c else v.cell i j := by
  have place : (2 * column + line * 160 : Int) = ((line * 160 + column * 2 : Nat) : Int) := by
    omega
  rw [cell_eq _ row col, cell_eq _ row col, vgaKputc, if_pos ascii, place,
    vgaAddress_nat (by omega)]
  dsimp only
  split
  next same => rw [same.1, same.2, put16_low, char_low]
  next other => exact patch_outside (by omega)

theorem vgaKputc_position (c : BitVec 8) (x y : Int) (v : Vga) :
    (vgaKputc c x y v).currentX = v.currentX ∧ (vgaKputc c x y v).currentY = v.currentY := by
  rw [vgaKputc]
  split <;> exact ⟨rfl, rfl⟩

theorem vgaScroll_of_lt (above : v.currentY < 25) : vgaScroll v = vgaUpdateCursor v := by
  rw [vgaScroll, if_neg (by omega)]

theorem vgaScroll_currentX (v : Vga) : (vgaScroll v).currentX = v.currentX := by
  rw [vgaScroll]
  dsimp only [vgaUpdateCursor, vgaMoveCursor]
  split <;> rfl

theorem vgaScroll_currentY (full : v.currentY = 25) : (vgaScroll v).currentY = 24 := by
  rw [vgaScroll, if_pos (by omega)]
  dsimp only [vgaUpdateCursor, vgaMoveCursor]

/-- One row too many: the rows move up by one, and the last one is blank. -/
theorem cell_vgaScroll (full : v.currentY = 25) (row : i < 25) (col : j < 80) :
    (vgaScroll v).cell i j = if i = 24 then 0#8 else v.cell (i + 1) j := by
  have start : vgaAddress 0 = 0xC00B8000 := by decide
  have second : vgaAddress ((1 : Nat) * 160) = 0xC00B8000 + 160 := by decide
  have last : vgaAddress (24 * 160) = 0xC00B8000 + 3840 := by decide
  have temp : (BitVec.ofInt 8 (25 - 24)).toNat = 1 := by decide
  have count : (BitVec.ofInt 32 ((25 - (1 : Nat)) * 160 * 2)).toNat = 7680 := by decide
  rw [cell_eq _ row col, vgaScroll, if_pos (by omega), full]
  dsimp only [vgaUpdateCursor, vgaMoveCursor]
  rw [temp, start, second, last, count, memcpy_down (by omega)]
  split
  next isLast =>
    rw [isLast, show 0xC00B8000 + (24 * 160 + j * 2) = 0xC00B8000 + 3840 + 2 * j by omega,
      memsetw_low (by omega), blank_low]
  next notLast =>
    have below : 0xC00B8000 + 160 + (0xC00B8000 + (i * 160 + j * 2) - 0xC00B8000) =
        0xC00B8000 + ((i + 1) * 160 + j * 2) := by omega
    rw [memsetw_outside (by omega), patch_inside (by omega) (by omega), below,
      cell_eq _ (by omega) col]

/-! ### The text -/

theorem columns_pos : 0 < 80 := by decide

/-- The layout of a text on the console: rows of 80 characters, a new one at each
`'\n'`. -/
def consoleLayout (text : List (BitVec 8)) : TextLayout (BitVec 8) 80 :=
  TextLayout.layOut 0x0A#8 columns_pos text

/-- The characters 0x20 to 0x7E. -/
def Printable (c : BitVec 8) : Prop := 0x20#8 ≤ c ∧ c ≤ 0x7E#8

instance (c : BitVec 8) : Decidable (Printable c) := inferInstanceAs (Decidable (_ ∧ _))

/-- The screen shows a layout from row `top` on, and the position is the one of the
layout's next cell. -/
structure Shows (v : Vga) (l : TextLayout (BitVec 8) 80) (top : Nat) : Prop where
  cells : ∀ i < 25, ∀ j < 80, v.cell i j = l.cell 0#8 (top + i) j
  column : v.currentX = 2 * l.row.length
  line : v.currentY + top = l.above.length

variable {l : TextLayout (BitVec 8) 80}

namespace Shows

theorem cleared (v : Vga) : Shows (vgaClear v) (TextLayout.start (by decide)) 0 where
  cells i row j col := by
    rw [cell_vgaClear v row col]
    exact (TextLayout.cell_of_unused (Nat.zero_le _) fun _ => rfl).symm
  column := rfl
  line := rfl

/-- Scrolling brings the last row, which is blank if it is one too many, into view. -/
theorem scrolled (shows : Shows v l top)
    (near : top = l.above.length - 24 ∨ top = l.above.length - 25 ∧ l.row = []) :
    Shows (vgaScroll v) l (l.above.length - 24) := by
  have line := shows.line
  by_cases above : v.currentY < 25
  · have stays : l.above.length - 24 = top := by omega
    rw [vgaScroll_of_lt above, stays]
    exact ⟨shows.cells, shows.column, shows.line⟩
  · have full : v.currentY = 25 := by omega
    have up : l.above.length - 24 = top + 1 := by omega
    have unused : l.row = [] := (near.resolve_left (by omega)).2
    rw [up]
    refine ⟨fun i row j col => ?_, ?_, ?_⟩
    · rw [cell_vgaScroll full row col]
      split
      next isLast => exact (TextLayout.cell_of_unused (by omega) fun _ => unused).symm
      next notLast => rw [shows.cells (i + 1) (by omega) j col, Nat.add_assoc, Nat.add_comm i 1]
    · rw [vgaScroll_currentX]
      exact shows.column
    · rw [vgaScroll_currentY full]
      omega

theorem newline (shows : Shows v l (l.above.length - 24)) :
    Shows (vgaPutc v 0x0A#8) l.newRow (l.newRow.above.length - 24) := by
  have length : l.newRow.above.length = l.above.length + 1 := l.length_rows
  have line := shows.line
  have written : Shows { v with currentY := v.currentY + 1, currentX := 0 } l.newRow
      (l.above.length - 24) := by
    refine ⟨fun i row j col => ?_, rfl, ?_⟩
    · rw [TextLayout.cell_newRow]
      exact shows.cells i row j col
    · dsimp only
      omega
  rw [vgaPutc, if_pos rfl]
  exact written.scrolled (Or.inr ⟨by omega, rfl⟩)

/-- The cell is written before the position moves on. -/
theorem cell_written (shows : Shows v l (l.above.length - 24)) (ascii : isascii c)
    (row : i < 25) (col : j < 80) :
    (vgaKputc c v.currentX v.currentY v).cell i j =
      (l.put c).cell 0#8 (l.above.length - 24 + i) j := by
  have room := l.room
  have line : v.currentY = ((l.above.length - (l.above.length - 24) : Nat) : Int) := by
    have line := shows.line
    omega
  rw [shows.column, line, cell_vgaKputc ascii (by omega) room row col, TextLayout.cell_put,
    shows.cells i row j col]
  congr 1
  rw [eq_iff_iff]
  omega

/-- The position moves on, and to the next row behind the last column. -/
theorem advanced {w : Vga} (cells : ∀ i < 25, ∀ j < 80, w.cell i j = (l.put c).cell 0#8 (top + i) j)
    (column : w.currentX = 2 * l.row.length) (line : w.currentY + top = l.above.length) :
    Shows (vgaWrap { w with currentX := w.currentX + 2 }) (l.put c) top := by
  rw [vgaWrap]
  dsimp only
  by_cases room : (l.row ++ [c]).length < 80
  · obtain ⟨above, row⟩ := TextLayout.put_of_room room
    rw [length_append, length_singleton] at room
    rw [if_neg (by omega)]
    refine ⟨cells, ?_, ?_⟩
    · rw [row, length_append, length_singleton]
      dsimp only
      omega
    · rw [above]
      exact line
  · obtain ⟨above, row⟩ := TextLayout.put_of_full room
    rw [length_append, length_singleton] at room
    rw [if_pos (by omega)]
    refine ⟨cells, ?_, ?_⟩
    · rw [row]
      rfl
    · rw [above, length_append, length_singleton]
      dsimp only
      omega

theorem character (shows : Shows v l (l.above.length - 24)) (ascii : isascii c)
    (notNewline : c ≠ 0x0A#8) (notBackspace : c ≠ 0x08#8) (notTab : c ≠ 0x09#8) :
    Shows (vgaPutc v c) (l.put c) ((l.put c).above.length - 24) := by
  obtain ⟨sameX, sameY⟩ := vgaKputc_position c v.currentX v.currentY v
  rw [vgaPutc, if_neg notNewline, if_neg notBackspace, if_neg notTab]
  apply scrolled (advanced (fun i row j col => shows.cell_written ascii row col)
    (sameX.trans shows.column) (sameY.symm ▸ shows.line))
  by_cases room : (l.row ++ [c]).length < 80
  · rw [(TextLayout.put_of_room room).1]
    exact Or.inl rfl
  · obtain ⟨above, row⟩ := TextLayout.put_of_full room
    rw [above, length_append, length_singleton]
    exact Or.inr ⟨by omega, row⟩

end Shows

theorem Printable.isascii (printable : Printable c) : isascii c := by
  have small : c.toNat ≤ 126 := le_def.mp printable.2
  rw [Crunchy.isascii, toInt_eq_toNat_of_lt (by omega)]
  omega

theorem Printable.ne_control (printable : Printable c) : c ≠ 0x08#8 ∧ c ≠ 0x09#8 := by
  constructor <;> rintro rfl <;> exact absurd printable (by decide)

/-- One character of a text is one step of its layout. -/
theorem Shows.vgaPutc (shows : Shows v l (l.above.length - 24))
    (plain : c = 0x0A#8 ∨ Printable c) :
    Shows (vgaPutc v c) (l.write 0x0A#8 c) ((l.write 0x0A#8 c).above.length - 24) := by
  rw [TextLayout.write]
  split
  next isNewline =>
    rw [isNewline]
    exact shows.newline
  next notNewline =>
    have printable := plain.resolve_left notNewline
    exact shows.character printable.isascii notNewline printable.ne_control.1
      printable.ne_control.2

/-- Whatever is written, the last rows are shown. -/
theorem Shows.vgaPuts (text : List (BitVec 8)) (plain : ∀ c ∈ text, c = 0x0A#8 ∨ Printable c)
    (shows : Shows v l (l.above.length - 24)) :
    Shows (vgaPuts v text) (text.foldl (TextLayout.write 0x0A#8) l)
      ((text.foldl (TextLayout.write 0x0A#8) l).above.length - 24) := by
  induction text generalizing v l with
  | nil => exact shows
  | cons c text ih =>
    exact ih (fun d member => plain d (mem_cons_of_mem c member))
      (shows.vgaPutc (plain c mem_cons_self))

theorem shows_consoleLayout (v : Vga) (text : List (BitVec 8))
    (plain : ∀ c ∈ text, c = 0x0A#8 ∨ Printable c) :
    Shows (vgaPuts (vgaClear v) text) (consoleLayout text)
      ((consoleLayout text).above.length - 24) :=
  (Shows.cleared v).vgaPuts text plain

/-- From `vga_clear` on, the 25 rows of the screen are the last 25 rows of the layout of
what has been written, and blank ones if there are fewer; the position is the one of
the layout's next cell. -/
theorem console_shows_tail (v : Vga) (text : List (BitVec 8))
    (plain : ∀ c ∈ text, c = 0x0A#8 ∨ Printable c) :
    (∀ i < 25, ∀ j < 80, (vgaPuts (vgaClear v) text).cell i j =
      cellOf 0#8 ((consoleLayout text).lastRows 25) i j) ∧
    (vgaPuts (vgaClear v) text).currentX / 2 = (consoleLayout text).row.length ∧
    (vgaPuts (vgaClear v) text).currentY + 1 = ((consoleLayout text).lastRows 25).length := by
  have shows := shows_consoleLayout v text plain
  refine ⟨fun i row j col => ?_, ?_, ?_⟩
  · rw [shows.cells i row j col, TextLayout.cellOf_lastRows]
    rfl
  · rw [shows.column]
    omega
  · have line := shows.line
    rw [TextLayout.length_lastRows]
    omega

/-! ### A console at the start -/

/-- The console as the kernel has it at the start, in memory that is zero. -/
def bootConsole : Vga where
  memory := fun _ => 0#8
  currentX := 0
  currentY := 0
  currentAttrib := 0x07#32
  cursor := 0#16

/-- Twenty-six rows, `a` in the first one and `b` in the last: the first one has been
scrolled off. -/
theorem first_row_scrolled_off :
    (vgaPuts (vgaClear bootConsole) ([0x61#8] ++ List.replicate 25 0x0A#8 ++ [0x62#8])).cell 0 0 =
        0#8 ∧
      (vgaPuts (vgaClear bootConsole) ([0x61#8] ++ List.replicate 25 0x0A#8 ++ [0x62#8])).cell
        24 0 = 0x62#8 := by
  have shown := (console_shows_tail bootConsole
    ([0x61#8] ++ List.replicate 25 0x0A#8 ++ [0x62#8]) (by decide)).1
  rw [shown 0 (by decide) 0 (by decide), shown 24 (by decide) 0 (by decide)]
  exact ⟨by decide, by decide⟩

end Crunchy
