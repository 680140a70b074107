/-
Module: Crunchy.Lib.TextLayout
Purpose: A text laid out in rows of a fixed width, and the last rows of it as a screen
  shows them. A row ends at a newline, and where it is full.
Trusted boundary: none
Main exports: TextLayout, write, layOut, lastRows, cell_put
-/
import Mathlib.Data.Nat.Basic
import Mathlib.Tactic.TypeStar

namespace Crunchy.Lib

open Option List

/-- The rows of a layout: those that are finished, and the one that the next cell
belongs to. That row is never full. -/
structure TextLayout (α : Type*) (width : Nat) where
  above : List (List α)
  row : List α
  room : row.length < width

variable {α : Type*} {width : Nat}

/-- The cell in row `i` and column `j`, blank where there is none. -/
def cellOf (blank : α) (rows : List (List α)) (i j : Nat) : α :=
  ((rows[i]?.getD [])[j]?).getD blank

namespace TextLayout

/-- Nothing is written yet. -/
def start (positive : 0 < width) : TextLayout α width where
  above := []
  row := []
  room := positive

/-- All rows, the last one included. -/
def rows (l : TextLayout α width) : List (List α) := l.above ++ [l.row]

/-- End the row. -/
def newRow (l : TextLayout α width) : TextLayout α width where
  above := l.rows
  row := []
  room := Nat.zero_lt_of_lt l.room

/-- Put a character in the next cell. A row that it fills is ended. -/
def put (l : TextLayout α width) (c : α) : TextLayout α width :=
  if room : (l.row ++ [c]).length < width then
    { above := l.above, row := l.row ++ [c], room := room }
  else
    { above := l.above ++ [l.row ++ [c]], row := [], room := Nat.zero_lt_of_lt l.room }

/-- Write one character of a text. -/
def write [DecidableEq α] (newline : α) (l : TextLayout α width) (c : α) : TextLayout α width :=
  if c = newline then l.newRow else l.put c

/-- The layout of a text. -/
def layOut [DecidableEq α] (newline : α) (positive : 0 < width) (text : List α) :
    TextLayout α width :=
  text.foldl (write newline) (start positive)

/-- The last `height` rows, or all of them. -/
def lastRows (l : TextLayout α width) (height : Nat) : List (List α) :=
  l.rows.drop (l.rows.length - height)

/-- The cell in row `i` and column `j` of the layout. -/
def cell (l : TextLayout α width) (blank : α) (i j : Nat) : α := cellOf blank l.rows i j

variable {l : TextLayout α width} {blank c : α} {i j height : Nat}

theorem length_rows (l : TextLayout α width) : l.rows.length = l.above.length + 1 :=
  length_append

theorem put_of_room (room : (l.row ++ [c]).length < width) :
    (l.put c).above = l.above ∧ (l.put c).row = l.row ++ [c] := by
  rw [put, dif_pos room]
  exact ⟨rfl, rfl⟩

theorem put_of_full (full : ¬ (l.row ++ [c]).length < width) :
    (l.put c).above = l.above ++ [l.row ++ [c]] ∧ (l.put c).row = [] := by
  rw [put, dif_neg full]
  exact ⟨rfl, rfl⟩

theorem length_lastRows (l : TextLayout α width) (height : Nat) :
    (l.lastRows height).length = l.above.length + 1 - (l.above.length + 1 - height) := by
  rw [lastRows, length_drop, length_rows]

/-- The rows of the screen, counted from the top of the layout. -/
theorem cellOf_lastRows (l : TextLayout α width) (blank : α) (height i j : Nat) :
    cellOf blank (l.lastRows height) i j =
      l.cell blank (l.above.length + 1 - height + i) j := by
  rw [cell, cellOf, cellOf, lastRows, getElem?_drop, length_rows]

/-- What stands behind the last element of a list, and what stands before. -/
theorem getD_concat {β : Type*} (xs : List β) (x blank : β) (k : Nat) :
    ((xs ++ [x])[k]?).getD blank = if k = xs.length then x else (xs[k]?).getD blank := by
  rcases Nat.lt_trichotomy k xs.length with inside | rfl | outside
  · rw [getElem?_append_left inside, if_neg (Nat.ne_of_lt inside)]
  · rw [getElem?_concat_length, if_pos rfl, getD_some]
  · have behind : (xs ++ [x]).length ≤ k := by
      rw [length_append]
      exact outside
    rw [if_neg (Nat.ne_of_gt outside), getElem?_eq_none behind,
      getElem?_eq_none (Nat.le_of_lt outside)]

theorem cellOf_concat (rows : List (List α)) (row : List α) :
    cellOf blank (rows ++ [row]) i j =
      if i = rows.length then (row[j]?).getD blank else cellOf blank rows i j := by
  rw [cellOf, getD_concat]
  split <;> rfl

theorem cellOf_of_le {rows : List (List α)} (outside : rows.length ≤ i) :
    cellOf blank rows i j = blank := by
  rw [cellOf, getElem?_eq_none outside]
  rfl

/-- A row that has nothing in it looks like no row. -/
theorem cellOf_append_nil (rows : List (List α)) :
    cellOf blank (rows ++ [[]]) i j = cellOf blank rows i j := by
  rw [cellOf_concat]
  split
  next isLast => exact (cellOf_of_le (Nat.le_of_eq isLast.symm)).symm
  next => rfl

theorem cell_newRow (l : TextLayout α width) (blank : α) (i j : Nat) :
    l.newRow.cell blank i j = l.cell blank i j :=
  cellOf_append_nil l.rows

/-- No cell but the next one changes. -/
theorem cell_put (l : TextLayout α width) (blank c : α) (i j : Nat) :
    (l.put c).cell blank i j =
      if i = l.above.length ∧ j = l.row.length then c else l.cell blank i j := by
  have written : cellOf blank (l.above ++ [l.row ++ [c]]) i j =
      if i = l.above.length ∧ j = l.row.length then c else l.cell blank i j := by
    rw [cell, rows, cellOf_concat, cellOf_concat, getD_concat]
    by_cases isRow : i = l.above.length
    · simp only [isRow, true_and, if_true]
    · rw [if_neg isRow, if_neg isRow, if_neg fun both => isRow both.1]
  rw [put]
  split
  · exact written
  · exact (cellOf_append_nil _).trans written

/-- The cells behind the last row, and those of a row with nothing in it, are blank. -/
theorem cell_of_unused (behind : l.above.length ≤ i) (unused : i = l.above.length → l.row = []) :
    l.cell blank i j = blank := by
  rw [cell, rows, cellOf_concat]
  split
  next isRow => rw [unused isRow, getElem?_nil, getD_none]
  next => exact cellOf_of_le behind

end TextLayout

end Crunchy.Lib
