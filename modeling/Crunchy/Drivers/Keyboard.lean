/-
Module: Crunchy.Drivers.Keyboard
Purpose: The keyboard driver of `kernel/drivers/keyboard.c`: the interrupt handler that
  edits a line in `buffer` and hands it over in `linebuffer`, and `gets`, which takes it
  from there.
Trusted boundary: human-reviewed spec
Main exports: Keyboard, keyboardInstall, keyboardHandler, gets
-/
import Crunchy.Drivers.Vga

namespace Crunchy

open Lib

/-- The tables of characters; `\xfc` to `\xff` are keys of the number pad. -/
def charTable (chars : List Char) : List (BitVec 8) := chars.map fun c => BitVec.ofNat 8 c.toNat

/-- `keyboard`. -/
def keyboard : List (BitVec 8) := charTable
  ['\x00', '\x1b', '1', '2', '3', '4', '5', '6', '7', '8', '9', '0', '-', '=', '\x08',
   '\t', 'q', 'w', 'e', 'r', 't', 'y', 'u', 'i', 'o', 'p', '[', ']', '\n', '\x00',
   'a', 's', 'd', 'f', 'g', 'h', 'j', 'k', 'l', ';', '\x27', '\x60', '\x00', '\x5c', 'z',
   'x', 'c', 'v', 'b', 'n', 'm', ',', '.', '/', '\x00', '*', '\x00', ' ', '\x00', '\x00',
   '\x00', '\x00', '\x00', '\x00',
   '\x00', '\x00', '\x00', '\x00', '\x00', '\x00', '\x00', '\x00', '\xfe', '\x00', '-',
   '\xfc', '\x00', '\xfd', '+', '\x00', '\xff', '\x00', '\x00', '\x00', '\x00', '\x00',
   '\x00', '\x00',
   '\x00', '\x00']

/-- `keyboard_shift`. -/
def keyboardShift : List (BitVec 8) := charTable
  ['\x00', '\x1b', '!', '@', '#', '$', '%', '^', '&', '*', '(', ')', '_', '+', '\x08',
   '\t', 'Q', 'W', 'E', 'R', 'T', 'Y', 'U', 'I', 'O', 'P', '\x7b', '\x7d', '\n', '\x00',
   'A', 'S', 'D', 'F', 'G', 'H', 'J', 'K', 'L', ':', '\x22', '~', '\x00', '|', 'Z',
   'X', 'C', 'V', 'B', 'N', 'M', '<', '>', '?', '\x00', '*', '\x00', ' ', '\x00', '\x00',
   '\x00', '\x00', '\x00', '\x00',
   '\x00', '\x00', '\x00', '\x00', '\x00', '\x00', '\x00', '\x00', '\xfe', '\x00', '-',
   '\xfc', '\x00', '\xfd', '+', '\x00', '\xff', '\x00', '\x00', '\x00', '\x00', '\x00',
   '\x00', '\x00',
   '\x00', '\x00']

/-- The driver. `buffer` and `linebuffer` are addresses in `memory`; the screen has its
own. -/
structure Keyboard where
  memory : Bytes
  buffer : Nat
  linebuffer : Nat
  idx : U32
  shift : U32
  console : Vga

/-- The key of a scancode. There is none behind the end of the tables. -/
def Keyboard.keyOf (k : Keyboard) (scancode : BitVec 8) : Option (BitVec 8) :=
  if k.shift ≠ 0#32 then keyboardShift[scancode.toNat]? else keyboard[scancode.toNat]?

/-- What `keyboard_handler` does with a key that is pressed. -/
def keyPressed (key : BitVec 8) (k : Keyboard) : Option Keyboard :=
  let k := { k with console := vgaPutc k.console key }
  if key = 0x0A#8 then
    (strcpy k.memory k.linebuffer k.buffer).map fun memory =>
      { k with memory := memory, idx := 0#32 }
  else if key = 0x08#8 then
    if k.idx ≠ 0#32 then
      some { k with memory := put8 k.memory (k.buffer + k.idx.toNat) 0#8, idx := k.idx - 1#32 }
    else some k
  else
    some { k with memory := put8 k.memory (k.buffer + k.idx.toNat) key, idx := k.idx + 1#32 }

/-- `keyboard_handler`, with the scancode that is read from port 0x60. -/
def keyboardHandler (scancode : BitVec 8) (k : Keyboard) : Option Keyboard :=
  let k := if 0x400#32 ≤ k.idx then { k with idx := 0#32 } else k
  if scancode &&& 0x80#8 ≠ 0#8 then
    -- a key is released
    if scancode &&& ~~~0x80#8 = 0x3A#8 then
      some { k with shift := if k.shift = 0#32 then 1#32 else 0#32 }
    else some k
  else (k.keyOf scancode).bind fun key => keyPressed key k

/-- `gets()`, with the bytes that `strdup` copies; `none` while it waits. -/
def gets (k : Keyboard) : Option (List (BitVec 8) × Keyboard) :=
  if k.memory k.linebuffer = 0#8 then none
  else (strlen k.memory k.linebuffer).map fun n =>
    ((List.range (BitVec.ofNat 16 n).toNat).map fun i => k.memory (k.linebuffer + i),
      { k with memory := memset k.memory k.linebuffer 0#8 0x100 })

/-- `keyboard_install()`, with what the two calls of `malloc` return. The memory they
return is not cleared. -/
def keyboardInstall (memory : Bytes) (buffer linebuffer : Nat) (console : Vga) : Keyboard where
  memory := memory
  buffer := buffer
  linebuffer := linebuffer
  idx := 0#32
  shift := 0#32
  console := console

end Crunchy
