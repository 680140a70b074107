/-
Module: Crunchy.Proofs.VgaCursor
Purpose: Where the console's position goes under any bytes, and the texts that keep it on the
  screen.
Trusted boundary: none
Main exports: ScreenPlace, ScreenPlace.next, KeepsOnScreen, cursor_on_screen_iff
-/
import Crunchy.Proofs.Vga

namespace Crunchy

open Lib

/-! ### Places on the screen -/

/-- A cell of the screen. -/
structure ScreenPlace where
  column : Nat
  line : Nat
  inColumn : column < 80
  inLine : line < 25

namespace ScreenPlace

/-- The upper left corner. -/
def home : ScreenPlace := ⟨0, 0, by decide, by decide⟩

/-- The start of the next row, which is the last one again on a full screen. -/
def nextLine (p : ScreenPlace) : ScreenPlace :=
  ⟨0, min (p.line + 1) 24, by decide, by omega⟩

/-- The place after a byte; `none` for a byte that leads off the screen: a backspace in the
first column, and a tab behind column 72 of the last row. -/
def next (p : ScreenPlace) (c : BitVec 8) : Option ScreenPlace :=
  if c = 0x0A#8 then some p.nextLine
  else if c = 0x08#8 then
    if p.column = 0 then none
    else some ⟨p.column - 1, p.line, by have := p.inColumn; omega, p.inLine⟩
  else if c = 0x09#8 then
    if near : p.column ≤ 72 then
      some ⟨(p.column + 7) / 8 * 8 + 1, p.line, by omega, p.inLine⟩
    else if p.line = 24 then none
    else some p.nextLine
  else if room : p.column + 1 < 80 then some ⟨p.column + 1, p.line, room, p.inLine⟩
  else some p.nextLine

end ScreenPlace

/-- No byte of a text leads off the screen. -/
def StaysInside (p : ScreenPlace) (text : List (BitVec 8)) : Prop :=
  (text.foldlM ScreenPlace.next p).isSome

instance (p : ScreenPlace) (text : List (BitVec 8)) : Decidable (StaysInside p text) :=
  inferInstanceAs (Decidable (_ = true))

/-! ### The position of the console -/

/-- The position is that of a cell. -/
def OnScreen (v : Vga) : Prop :=
  (0 ≤ v.currentX ∧ v.currentX < 160 ∧ v.currentX % 2 = 0) ∧ 0 ≤ v.currentY ∧ v.currentY < 25

/-- The call of `vga_kputc` in `vga_putc(c)`. -/
def kputcCall (v : Vga) (c : BitVec 8) : Option (BitVec 8 × Int × Int) :=
  if c = 0x0A#8 ∨ c = 0x09#8 then none
  else if c = 0x08#8 then some (0x20#8, v.currentX - 2, v.currentY)
  else some (c, v.currentX, v.currentY)

/-- What `vga_putc(c)` does besides. -/
def movedOn (c : BitVec 8) (v : Vga) : Vga :=
  if c = 0x0A#8 then vgaScroll { v with currentY := v.currentY + 1, currentX := 0 }
  else if c = 0x08#8 then { v with currentX := v.currentX - 2 }
  else if c = 0x09#8 then vgaWrap { v with currentX := tabLoop 15 v.currentX + 2 }
  else vgaScroll (vgaWrap { v with currentX := v.currentX + 2 })

/-- What `vga_kputc` writes in `vga_putc(c)` is a cell of the screen. -/
def WritesOnScreen (v : Vga) (c : BitVec 8) : Prop :=
  ∀ d x y, kputcCall v c = some (d, x, y) → isascii d →
    ∃ i < 25, ∃ j < 80, x + y * 160 = ((i * 160 + j * 2 : Nat) : Int)

/-- After each byte of the text the position is on the screen, and what was written for it is
there too. -/
def KeepsOnScreen (v : Vga) : List (BitVec 8) → Prop
  | [] => True
  | c :: text => (OnScreen (vgaPutc v c) ∧ WritesOnScreen v c) ∧ KeepsOnScreen (vgaPutc v c) text

variable {v : Vga} {c : BitVec 8} {p q : ScreenPlace}

/-- Writing a cell does not look at the position. -/
theorem vgaKputc_moved (d : BitVec 8) (x y currentX : Int) (v : Vga) :
    vgaKputc d x y { v with currentX } = { vgaKputc d x y v with currentX } := by
  rw [vgaKputc, vgaKputc]
  split <;> rfl

theorem vgaPutc_eq (v : Vga) (c : BitVec 8) :
    vgaPutc v c = movedOn c ((kputcCall v c).elim v fun (d, x, y) => vgaKputc d x y v) := by
  rw [vgaPutc, movedOn, kputcCall]
  by_cases isNewline : c = 0x0A#8
  · rw [if_pos isNewline, if_pos isNewline, if_pos (Or.inl isNewline)]
    rfl
  · rw [if_neg isNewline, if_neg isNewline]
    by_cases isBackspace : c = 0x08#8
    · rw [if_pos isBackspace, if_pos isBackspace, if_neg (by rw [isBackspace]; decide),
        if_pos isBackspace]
      dsimp only [Option.elim]
      rw [vgaKputc_moved, (vgaKputc_position 0x20#8 (v.currentX - 2) v.currentY v).1]
    · rw [if_neg isBackspace, if_neg isBackspace]
      by_cases isTab : c = 0x09#8
      · rw [if_pos isTab, if_pos isTab, if_pos (Or.inr isTab)]
        rfl
      · rw [if_neg isTab, if_neg isTab, if_neg (not_or.mpr ⟨isNewline, isTab⟩),
          if_neg isBackspace]
        rfl

/-- The position is that of the place. -/
structure CursorAt (v : Vga) (p : ScreenPlace) : Prop where
  column : v.currentX = 2 * p.column
  line : v.currentY = p.line

theorem CursorAt.onScreen (isAt : CursorAt v p) : OnScreen v := by
  have column := isAt.column
  have line := isAt.line
  have inColumn := p.inColumn
  have inLine := p.inLine
  rw [OnScreen]
  omega

/-- The console starts in the corner. -/
theorem CursorAt.cleared (v : Vga) : CursorAt (vgaClear v) .home := ⟨rfl, rfl⟩

/-! ### One byte -/

theorem vgaScroll_line (v : Vga) :
    (vgaScroll v).currentY = if 25 ≤ v.currentY then 24 else v.currentY := by
  rw [vgaScroll]
  dsimp only [vgaUpdateCursor, vgaMoveCursor]
  split <;> rfl

/-- A position in the first column of the next row, that may be one too many. -/
theorem CursorAt.scrolled {w : Vga} (column : w.currentX = 0) (line : w.currentY = p.line + 1) :
    CursorAt (vgaScroll w) p.nextLine := by
  refine ⟨(vgaScroll_currentX w).trans column, ?_⟩
  rw [vgaScroll_line, line, ScreenPlace.nextLine]
  split <;> (dsimp only; omega)

/-- A position on the screen stays where it is. -/
theorem CursorAt.kept {w : Vga} (isAt : CursorAt w p) : CursorAt (vgaScroll w) p := by
  have inLine := p.inLine
  have line := isAt.line
  refine ⟨(vgaScroll_currentX w).trans isAt.column, ?_⟩
  rw [vgaScroll_line, if_neg (by omega)]
  exact line

theorem tabLoop_bounds (left : Nat) (x : Int) :
    x ≤ tabLoop left x ∧ tabLoop left x ≤ x + left := by
  induction left generalizing x with
  | zero => exact ⟨Int.le_refl _, by rw [tabLoop]; omega⟩
  | succ left ih =>
    obtain ⟨low, high⟩ := ih (x + 1)
    rw [tabLoop]
    split <;> omega

/-- The tab stop behind a column. -/
theorem tabLoop_column (column : Nat) :
    tabLoop 15 (2 * column) = ((column + 7) / 8 * 16 : Nat) := by
  obtain ⟨low, high⟩ := tabLoop_bounds 15 (2 * column)
  obtain ⟨k, isStop⟩ := dvd_tab (2 * column)
  omega

/-- What is written from a place on the screen stays there, but for a backspace in the first
column. -/
theorem CursorAt.writesOnScreen (isAt : CursorAt v p) (inside : c = 0x08#8 → p.column ≠ 0) :
    WritesOnScreen v c := by
  intro d x y isCall _
  have column := isAt.column
  have line := isAt.line
  have inColumn := p.inColumn
  rw [kputcCall] at isCall
  split at isCall
  · cases isCall
  · split at isCall
    · rename_i isBackspace
      have notFirst := inside isBackspace
      cases isCall
      exact ⟨p.line, p.inLine, p.column - 1, by omega, by omega⟩
    · cases isCall
      exact ⟨p.line, p.inLine, p.column, inColumn, by omega⟩

/-- A tab goes one column behind the tab stop, or to the next row without scrolling. -/
theorem CursorAt.tabbed {w : Vga} (isAt : CursorAt w p) :
    (p.column ≤ 72 → vgaWrap { w with currentX := tabLoop 15 w.currentX + 2 } =
      { w with currentX := (2 * ((p.column + 7) / 8 * 8 + 1) : Nat) }) ∧
    (72 < p.column → vgaWrap { w with currentX := tabLoop 15 w.currentX + 2 } =
      { w with currentX := 0, currentY := p.line + 1 }) := by
  have stop : tabLoop 15 w.currentX + 2 = (2 * ((p.column + 7) / 8 * 8 + 1) : Nat) := by
    rw [isAt.column, tabLoop_column]
    omega
  rw [stop, vgaWrap]
  constructor
  · intro near
    rw [if_neg (by dsimp only; omega)]
  · intro far
    rw [if_pos (by dsimp only; omega), ← isAt.line]

/-- A character goes one column on, or to the next row. -/
theorem CursorAt.advanced {w : Vga} (isAt : CursorAt w p) :
    (p.column + 1 < 80 → vgaWrap { w with currentX := w.currentX + 2 } =
      { w with currentX := (2 * (p.column + 1) : Nat) }) ∧
    (¬ p.column + 1 < 80 → vgaWrap { w with currentX := w.currentX + 2 } =
      { w with currentX := 0, currentY := p.line + 1 }) := by
  have stop : w.currentX + 2 = (2 * (p.column + 1) : Nat) := by
    rw [isAt.column]
    omega
  rw [stop, vgaWrap]
  constructor
  · intro room
    rw [if_neg (by dsimp only; omega)]
  · intro full
    rw [if_pos (by dsimp only; omega), ← isAt.line]

/-- The position after a byte that stays on the screen. -/
theorem CursorAt.moved {w : Vga} (isAt : CursorAt w p) (isNext : p.next c = some q) :
    CursorAt (movedOn c w) q := by
  have column := isAt.column
  have line := isAt.line
  have inLine := p.inLine
  rw [ScreenPlace.next] at isNext
  rw [movedOn]
  by_cases isNewline : c = 0x0A#8
  · rw [if_pos isNewline] at isNext ⊢
    cases isNext
    exact .scrolled rfl (congrArg (· + 1) line)
  · rw [if_neg isNewline] at isNext ⊢
    by_cases isBackspace : c = 0x08#8
    · rw [if_pos isBackspace] at isNext ⊢
      split at isNext
      · cases isNext
      · cases isNext
        exact ⟨by dsimp only; omega, line⟩
    · rw [if_neg isBackspace] at isNext ⊢
      by_cases isTab : c = 0x09#8
      · rw [if_pos isTab] at isNext ⊢
        split at isNext
        · rename_i near
          cases isNext
          rw [isAt.tabbed.1 near]
          exact ⟨rfl, line⟩
        · rename_i far
          split at isNext
          · cases isNext
          · cases isNext
            rw [isAt.tabbed.2 (Nat.lt_of_not_le far), ScreenPlace.nextLine]
            exact ⟨rfl, by dsimp only; omega⟩
      · rw [if_neg isTab] at isNext ⊢
        split at isNext
        · rename_i room
          cases isNext
          rw [isAt.advanced.1 room]
          exact .kept ⟨rfl, line⟩
        · rename_i full
          cases isNext
          rw [isAt.advanced.2 full]
          exact .scrolled rfl rfl

/-- The position after a byte that leads off the screen: to the left of the first column, or
below the last row. -/
theorem CursorAt.moved_off {w : Vga} (isAt : CursorAt w p) (isOff : p.next c = none) :
    ¬ OnScreen (movedOn c w) := by
  have column := isAt.column
  rw [ScreenPlace.next] at isOff
  rw [movedOn]
  split at isOff
  · cases isOff
  · rename_i notNewline
    rw [if_neg notNewline]
    split at isOff
    · rename_i isBackspace
      rw [if_pos isBackspace, OnScreen]
      split at isOff
      · dsimp only
        omega
      · cases isOff
    · rename_i notBackspace
      rw [if_neg notBackspace]
      split at isOff
      · rename_i isTab
        rw [if_pos isTab]
        split at isOff
        · cases isOff
        · rename_i far
          split at isOff
          · rename_i isLast
            rw [isAt.tabbed.2 (Nat.lt_of_not_le far), OnScreen, isLast]
            dsimp only
            omega
          · cases isOff
      · split at isOff <;> cases isOff

/-- The cell is written at the old position, and the position stays. -/
theorem CursorAt.written (isAt : CursorAt v p) (c : BitVec 8) :
    CursorAt ((kputcCall v c).elim v fun (d, x, y) => vgaKputc d x y v) p := by
  cases kputcCall v c with
  | none => exact isAt
  | some call =>
    obtain ⟨sameX, sameY⟩ := vgaKputc_position call.1 call.2.1 call.2.2 v
    exact ⟨sameX.trans isAt.column, sameY.trans isAt.line⟩

/-- A byte that stays on the screen. -/
theorem CursorAt.stays (isAt : CursorAt v p) (isNext : p.next c = some q) :
    CursorAt (vgaPutc v c) q ∧ WritesOnScreen v c := by
  constructor
  · rw [vgaPutc_eq]
    exact (isAt.written c).moved isNext
  · refine isAt.writesOnScreen ?_
    rintro rfl isFirst
    rw [ScreenPlace.next, if_neg (by decide), if_pos rfl, if_pos isFirst] at isNext
    cases isNext

/-- A byte that leads off the screen. -/
theorem CursorAt.leaves (isAt : CursorAt v p) (isOff : p.next c = none) :
    ¬ OnScreen (vgaPutc v c) := by
  rw [vgaPutc_eq]
  exact (isAt.written c).moved_off isOff

/-! ### A text -/

theorem CursorAt.keepsOnScreen_iff (isAt : CursorAt v p) (text : List (BitVec 8)) :
    KeepsOnScreen v text ↔ StaysInside p text := by
  induction text generalizing v p with
  | nil => exact iff_of_true trivial rfl
  | cons c text ih =>
    rw [KeepsOnScreen, StaysInside, List.foldlM_cons]
    cases isNext : p.next c with
    | none =>
      refine iff_of_false (fun keeps => isAt.leaves isNext keeps.1.1) ?_
      exact Bool.false_ne_true
    | some q =>
      obtain ⟨stays, writes⟩ := isAt.stays isNext
      rw [and_iff_right ⟨stays.onScreen, writes⟩]
      exact ih stays

/-- From `vga_clear` on, the position and what is written stay on the screen exactly for the
texts without a backspace in the first column and without a tab behind column 72 of the last
row. -/
theorem cursor_on_screen_iff (v : Vga) (text : List (BitVec 8)) :
    KeepsOnScreen (vgaClear v) text ↔ StaysInside .home text :=
  (CursorAt.cleared v).keepsOnScreen_iff text

-- a row of 80 characters, a tab in the second row and a backspace behind it
example : StaysInside .home (List.replicate 80 0x61#8 ++ [0x09#8, 0x08#8]) := by decide

/-- A backspace at the start. -/
theorem backspace_leaves_screen :
    ¬ ∀ (v : Vga) (text : List (BitVec 8)), KeepsOnScreen (vgaClear v) text := by
  intro keeps
  have stays := ((CursorAt.cleared bootConsole).keepsOnScreen_iff [0x08#8]).mp (keeps _ _)
  exact absurd stays (by decide)

end Crunchy
