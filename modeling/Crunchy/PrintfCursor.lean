/-
Module: Crunchy.PrintfCursor
Purpose: `vsnprintf` of `kernel/lib/printf.c` with the pointer into its format: one step for
  each character, and for each jump to `next_format`. The arguments as `va_arg` takes them
  off the stack.
Trusted boundary: human-reviewed spec, and that of `Crunchy.Printf`
Main exports: Cursor, Cursor.Ends, Cursor.next, printing, vaArgs
-/
import Crunchy.Lib.Transition
import Crunchy.Printf

namespace Crunchy

open Lib

/-- Where the function is in its format: the index of the character that `format` points to,
which is the one that is read next, and whether it is at `next_format`. -/
structure Cursor where
  format : Nat
  mode : PrintMode
  printer : Printer

/-- The characters that the inner `switch` has a `case` for, besides `#` and `+`:
`%xXdiulobscw`. -/
def conversions : List (BitVec 8) :=
  [37#8, 120#8, 88#8, 100#8, 105#8, 117#8, 108#8, 111#8, 98#8, 115#8, 99#8, 119#8]

/-- The test of the outer loop fails. -/
def Cursor.Ends (text : Bytes) (size : U32) (c : Cursor) : Prop :=
  match c.mode with
  | .text => text c.format = 0#8 ∨ ¬ c.printer.n < size
  | .directive _ => False

/-- One step of the function; `none` where a function that it calls does not return. -/
def Cursor.next (v : Version) (text : Bytes) (size : U32) (c : Cursor) : Option Cursor :=
  let p := c.printer
  let char := text c.format
  match c.mode with
  | .text =>
    if char = 37#8 then some ⟨c.format + 1, .directive false, p⟩
    else some ⟨c.format + 1, .text, { p.emit char with flags := .none }⟩
  | .directive inWidth =>
    if char = 35#8 then
      some ⟨c.format + 1, .directive false, { p with flags.alternate := true }⟩
    else if char = 43#8 then
      some ⟨c.format + 1, .directive false, { p with flags.alwaysSign := true }⟩
    else if isdigit char then
      some ⟨c.format + 1, .directive true, { p with
        flags.pad := true
        pad := (if inWidth then p.pad else 0#32) * 10#32 + (char - 48#8).setWidth 32 }⟩
    else if char ∈ conversions then
      ((p.convert v size (Char.ofNat char.toNat)).bind (Printer.finish size)).map fun p =>
        ⟨c.format + 1, .text, p⟩
    -- the `default`, where there is no digit: `pad = 0; goto next_format`
    else some ⟨c.format, .directive false, { p with pad := 0#32 }⟩

/-- Where the function starts. -/
def Cursor.start (str buf : Bytes) (size : U32) (ap : List Arg) : Cursor :=
  ⟨0, .text, ⟨memset str 0 0#8 size.toNat, memset buf bufAt 0#8 size.toNat, 0#32, 0#32, .none, ap⟩⟩

/-- A call of the function as a system of steps. -/
def printing (v : Version) (text str buf : Bytes) (size : U32) (ap : List Arg) :
    System Cursor Unit where
  Start c := c = .start str buf size ap
  Step c _ c' := ¬ c.Ends text size ∧ c.next v text size = some c'

/-! ### Arguments -/

/-- What a conversion takes off the stack, and how many words that is; `strings` are the
strings at all addresses. -/
def takeArgs (strings : U32 → List (BitVec 8)) (stack : Nat → U32) (char : BitVec 8) :
    List Arg × Nat :=
  if char = 115#8 then ([.string (strings (stack 0))], 1)
  else if char = 108#8 then ([.word (stack 0), .word (stack 1)], 2)
  else if char = 37#8 ∨ char = 119#8 then ([], 0)
  else ([.word (stack 0)], 1)

/-- The arguments of a call with the words `stack` behind its format, up to an unknown
conversion. -/
def vaArgs (strings : U32 → List (BitVec 8)) : List (BitVec 8) → PrintMode → (Nat → U32) → List Arg
  | [], _, _ => []
  | char :: format, .text, stack =>
    vaArgs strings format (if char = 37#8 then .directive false else .text) stack
  | char :: format, .directive _, stack =>
    if char = 35#8 ∨ char = 43#8 then vaArgs strings format (.directive false) stack
    else if isdigit char then vaArgs strings format (.directive true) stack
    else if char ∈ conversions then
      (takeArgs strings stack char).1 ++
        vaArgs strings format .text fun i => stack (i + (takeArgs strings stack char).2)
    else []

end Crunchy
