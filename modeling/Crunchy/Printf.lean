/-
Module: Crunchy.Printf
Purpose: `vsnprintf` of `kernel/lib/printf.c` and of `libc/usr/stdio/vsnprintf.c`.
Trusted boundary: human-reviewed spec. The buffer `str`, the scratch buffer and the
  strings among the arguments are taken to lie apart; the scratch memory goes on behind
  the `size` bytes of its buffer and has the byte in front of it.
Main exports: Arg, Printer, Version, vsnprintfWith, vsnprintf, Libc.vsnprintf
-/
import Crunchy.Stdlib

namespace Crunchy

open Lib

/-- The bits of `flags`. -/
structure PrintFlags where
  /-- `PREFIX` -/
  alternate : Bool
  /-- `ALWAYS_SIGN` -/
  alwaysSign : Bool
  /-- `PAD` -/
  pad : Bool
  /-- `LONG` -/
  long : Bool
  /-- `NOTNUM` -/
  notnum : Bool
deriving DecidableEq

/-- `flags = 0`. -/
def PrintFlags.none : PrintFlags := ⟨false, false, false, false, false⟩

/-- An argument: a word, or the address of a string, given by its characters. -/
inductive Arg where
  | word (w : U32)
  | string (s : List (BitVec 8))

/-- The locals of `vsnprintf` and the memory it writes. `str` starts at offset 0 of its
memory and `buf` at offset 1, behind the byte in front of it. -/
structure Printer where
  str : Bytes
  buf : Bytes
  n : U32
  pad : U32
  flags : PrintFlags
  args : List Arg

/-- What the two versions of the function have of their own: the `sitoa` they are linked
with, and whether there is a conversion `X`. -/
structure Version where
  sitoa : Bytes → U32 → Nat → Nat → Option Bytes
  hasX : Bool

/-- The address of `buf`. -/
def bufAt : Nat := 1

/-- `str[n++] = c`. -/
def Printer.emit (p : Printer) (c : BitVec 8) : Printer :=
  { p with str := put8 p.str p.n.toNat c, n := p.n + 1#32 }

/-- `for (int i = ..; i < .. && (i + n) < size; i++) str[n++] = source[i]`, `left` rounds
before `i` gets to its bound. -/
def Printer.emitLoop (size : U32) (source : Nat → BitVec 8) :
    (left : Nat) → (i : U32) → Printer → Printer
  | 0, _, p => p
  | left + 1, i, p =>
    if i + p.n < size then emitLoop size source left (i + 1#32) (p.emit (source i.toNat))
    else p

/-- Emit `text` if the flag is set and `n + room < size`. -/
def Printer.emitIf (size room : U32) (flag : Bool) (text : List (BitVec 8)) (p : Printer) :
    Printer :=
  if flag ∧ p.n + room < size then text.foldl emit p else p

/-- `strcpy(buf, tmp)` from a string in memory of its own: `strncpy` gets the length as 16
bits and writes no `NUL`. -/
def strcpyArg (b : Bytes) (dest : Nat) (tmp : List (BitVec 8)) : Bytes :=
  patch b dest (tmp.length % 2 ^ 16) fun i => tmp.getD i 0#8

/-- The conversion `c` with the next argument. `none` if it does not end, if `c` is none
of the conversions, so that the function goes round from `next_format` for ever, or if the
arguments do not match. -/
def Printer.convert (v : Version) (size : U32) (c : Char) (p : Printer) : Option Printer :=
  match c, p.args with
  | '%', _ => some { p with buf := put8 (put8 p.buf bufAt 37#8) (bufAt + 1) 0#8 }
  | 'x', .word w :: args => do
      let buf ← itoa p.buf w bufAt 16
      some ({ p with buf := buf, args := args }.emitIf size 2#32 p.flags.alternate
        [48#8, 120#8])
  | 'X', .word w :: args =>
    if v.hasX then do
      let buf ← ctoa p.buf (w.setWidth 8) bufAt 16
      some ({ p with buf := buf, args := args }.emitIf size 2#32 p.flags.alternate
        [48#8, 120#8])
    else none
  | 'd', .word w :: args => do
      let p := p.emitIf size 1#32 p.flags.alwaysSign [if 0 < w.toInt then 43#8 else 45#8]
      let buf ← v.sitoa p.buf w bufAt 10
      some { p with buf := buf, args := args }
  | 'i', .word w :: args => do
      let p := p.emitIf size 1#32 (w.toInt < 0) [45#8]
      let buf ← v.sitoa p.buf w bufAt 10
      some { p with buf := buf, args := args }
  | 'u', .word w :: args => do
      let buf ← itoa p.buf w bufAt 10
      some { p with buf := buf, args := args }
  | 'l', .word low :: .word high :: args => do
      let buf ← ltoa p.buf (high ++ low) bufAt 16
      some { p with buf := buf, args := args, flags.long := true }
  | 'o', .word w :: args => do
      let buf ← itoa p.buf w bufAt 8
      some ({ p with buf := buf, args := args }.emitIf size 2#32 p.flags.alternate [48#8])
  | 'b', .word w :: args => do
      let buf ← itoa p.buf w bufAt 2
      some { p with buf := buf, args := args }
  | 's', .string tmp :: args =>
    some { p with buf := strcpyArg p.buf bufAt tmp, args := args, flags.notnum := true }
  | 'c', .word w :: args =>
    some { p with
      buf := put8 (put8 p.buf bufAt (w.setWidth 8)) (bufAt + 1) 0#8
      args := args
      flags.notnum := true }
  | 'w', _ => some { p with buf := put8 p.buf bufAt 32#8, flags.pad := true }
  | _, _ => none

/-- What follows the inner `switch`: pad, copy what is in `buf`, clear it. -/
def Printer.finish (size : U32) (p : Printer) : Option Printer := do
  let len ← strlen p.buf bufAt
  let fill : BitVec 8 := if p.flags.notnum then 32#8 else 48#8
  let p := if p.flags.pad ∧ len < p.pad.toNat then
      p.emitLoop size (fun _ => fill) (p.pad.toNat - len) 0#32
    else p
  let p := p.emitLoop size (fun i => p.buf (bufAt + i)) len 0#32
  some { p with buf := memset p.buf bufAt 0#8 len }

/-- Where the loop is: in the text, or at `next_format`, where `inWidth` says whether the
character before was a digit of the width. -/
inductive PrintMode where
  | text
  | directive (inWidth : Bool)

/-- The loop over the format. -/
def Printer.loop (v : Version) (size : U32) : List (BitVec 8) → PrintMode → Printer →
    Option Printer
  | [], .text, p => some p
  -- a `%` at the very end: `next_format` does not get past the `NUL`
  | [], .directive _, _ => none
  | c :: format, .text, p =>
    if p.n < size then
      if c = 37#8 then loop v size format (.directive false) p
      else loop v size format .text { p.emit c with flags := .none }
    else some p
  | c :: format, .directive inWidth, p =>
    if c = 35#8 then loop v size format (.directive false) { p with flags.alternate := true }
    else if c = 43#8 then
      loop v size format (.directive false) { p with flags.alwaysSign := true }
    else if isdigit c then
      loop v size format (.directive true) { p with
        flags.pad := true
        pad := (if inWidth then p.pad else 0#32) * 10#32 + (c - 48#8).setWidth 32 }
    else do
      let p ← p.convert v size (Char.ofNat c.toNat)
      let p ← p.finish size
      loop v size format .text p

/-- `vsnprintf(str, size, format, ap)`: the bytes from `str` on and the result. `str` and
`buf` are the memory at the call, with the buffer that `malloc` returns at offset 1. -/
def vsnprintfWith (v : Version) (str buf : Bytes) (size : U32) (format : List (BitVec 8))
    (ap : List Arg) : Option (Bytes × U32) :=
  (Printer.loop v size format .text ⟨memset str 0 0#8 size.toNat,
    memset buf bufAt 0#8 size.toNat, 0#32, 0#32, .none, ap⟩).map fun p => (p.str, p.n)

/-- The kernel's `vsnprintf`. -/
def vsnprintf := vsnprintfWith ⟨sitoa, true⟩

/-- The `vsnprintf` of `libc`. -/
def Libc.vsnprintf := vsnprintfWith ⟨Libc.sitoa, false⟩

end Crunchy
