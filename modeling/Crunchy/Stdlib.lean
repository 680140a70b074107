/-
Module: Crunchy.Stdlib
Purpose: Numbers to strings: `itoa` and `sitoa` of `kernel/lib/stdlib.c` and of
  `libc/usr/stdlib`, and `atoi` back, `ltoa` and `ctoa` of `kernel/lib/printf.c`. Each writes the digits
  backwards and has `strrev` turn them round. `isdigit` of `ctype.h`.
Trusted boundary: human-reviewed spec
Main exports: isdigit, digitChar, itoa, sitoa, Libc.sitoa, atoi, ltoa, ctoa
-/
import Crunchy.Strings
import Crunchy.Types

namespace Crunchy

open Lib

/-- `isdigit(c)`. -/
def isdigit (c : BitVec 8) : Prop := 48#8 ≤ c ∧ c ≤ 57#8

instance (c : BitVec 8) : Decidable (isdigit c) := inferInstanceAs (Decidable (_ ∧ _))

/-- `(remainder > 9) ? (remainder - 10) + 'A' : remainder + '0'`. -/
def digitChar (remainder : Int) : BitVec 8 :=
  BitVec.ofInt 8 (if 9 < remainder then remainder - 10 + 65 else remainder + 48)

/-- `while (num != 0 && len--)` of `itoa`, from index `i` on. What is left of `len`, where
`none` is the -1 of a number that has more digits, and the index behind the last digit. -/
def itoaLoop (buffer base : Nat) : (len num i : Nat) → Bytes → Option Nat × Nat × Bytes
  | len, 0, i, b => (some len, i, b)
  | 0, _ + 1, i, b => (none, i, b)
  | len + 1, num + 1, i, b =>
    itoaLoop buffer base len ((num + 1) / base) (i + 1)
      (put8 b (buffer + i) (digitChar ((num + 1) % base : Nat)))

/-- `while (len-- && base != 10) buffer[i++] = '0'`. From -1 on `len` does not get to 0:
`none` if the loop does not end. -/
def zeroLoop (buffer base : Nat) : (len : Option Nat) → (i : Nat) → Bytes → Option (Nat × Bytes)
  | none, i, b => if base ≠ 10 then none else some (i, b)
  | some 0, i, b => some (i, b)
  | some (len + 1), i, b =>
    if base ≠ 10 then zeroLoop buffer base (some len) (i + 1) (put8 b (buffer + i) 48#8)
    else some (i, b)

/-- `itoa(num, buffer, base)`; `none` if it does not end. -/
def itoa (b : Bytes) (num : U32) (buffer base : Nat) : Option Bytes :=
  let len := if base = 2 then 32 else 8
  if num = 0#32 ∧ base = 2 then some (put8 (memset b buffer 48#8 len) (buffer + len) 0#8)
  else do
    let (len, i, b) := itoaLoop buffer base len num.toNat 0 b
    let (i, b) ← zeroLoop buffer base len i b
    strrev (put8 b (buffer + i) 0#8) buffer

/-- `while (num != 0 && len--)` of `sitoa`: the division of a negative number truncates. -/
def sitoaLoop (buffer : Nat) (base : Int) : (len : Nat) → (num : Int) → (i : Nat) → Bytes →
    Nat × Bytes
  | 0, _, i, b => (i, b)
  | len + 1, num, i, b =>
    if num = 0 then (i, b)
    else sitoaLoop buffer base len (num.tdiv base) (i + 1)
      (put8 b (buffer + i) (digitChar (num.tmod base)))

/-- `abs(x)`, as an `int` again. -/
def abs (x : U32) : U32 := if x.toInt < 0 then x * -1#32 else x

/-- The two versions of `sitoa(num, buffer, base)`: the one that puts a minus sign behind
the digits of a negative number, and the one where this line is commented out. -/
def sitoaWith (minus : Bool) (b : Bytes) (num : U32) (buffer base : Nat) : Option Bytes :=
  if num = 0#32 ∨ base = 0 then some (put8 (put8 b buffer 48#8) (buffer + 1) 0#8)
  else
    let sign : Bool := ¬num.toInt < 0
    let num := if num.toInt < 0 then abs num else num
    let (i, b) := sitoaLoop buffer base 8 num.toInt 0 b
    let (i, b) := if minus ∧ sign = false then (i + 1, put8 b (buffer + i) 45#8) else (i, b)
    strrev (put8 b (buffer + i) 0#8) buffer

/-- The kernel's `sitoa`. -/
def sitoa := sitoaWith false

/-- The `sitoa` of `libc`. -/
def Libc.sitoa := sitoaWith true

/-- The value of `atoi` on the characters of a string: those that are no digits are passed over. -/
def atoiText (s : List (BitVec 8)) : U32 :=
  let sign := if s.headD 0#8 = 45#8 then -1#32 else 1#32
  sign * s.foldl
    (fun num c => if isdigit c then num * 10#32 + BitVec.ofInt 32 (c.toInt - 48) else num) 0#32

/-- `atoi(s)`, the same in the kernel and in `libc`. -/
def atoi (b : Bytes) (s : Nat) : Option U32 :=
  (strlen b s).map fun len => atoiText ((List.range len).map fun i => b (s + i))

/-- `ltoa` and `ctoa`, which divide a number of `bits` bits until it is 0. That takes at
most `bits` rounds for a base from 2 on. -/
def toaWith (bits : Nat) (b : Bytes) (num : BitVec bits) (buffer base : Nat) : Option Bytes :=
  let (_, i, b) := itoaLoop buffer base bits num.toNat 0 b
  strrev (put8 b (buffer + i) 0#8) buffer

/-- `ltoa(num, buffer, base)`. -/
def ltoa := toaWith 64

/-- `ctoa(num, buffer, base)`. -/
def ctoa := toaWith 8

end Crunchy
