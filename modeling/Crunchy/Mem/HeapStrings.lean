/-
Module: Crunchy.Mem.HeapStrings
Purpose: The functions of `kernel/lib/string.c` that take a block from the heap. The world of
  the heap is the memory by address.
Trusted boundary: human-reviewed spec
Main exports: strdup, memmove
-/
import Crunchy.Mem.Malloc
import Crunchy.Strings

namespace Crunchy

open Lib

section HeapStrings

variable (env : HeapEnv Bytes)

/-- `strdup(s)`. The block is as long as the string without its `NUL`, and `strcpy` measures
the string once more. -/
def strdup (s : U32) (h : Heap Bytes) : Option (U32 × Heap Bytes) := do
  let n ← strlen h.world s.toNat
  let (dest, h) ← malloc env (BitVec.ofNat 32 n) h
  let world ← strcpy h.world dest.toNat s.toNat
  some (dest, { h with world })

/-- `memmove(s1, s2, n)`. Its two loops are the loop of `memcpy`: into the block at `temp`,
and out of it. -/
def memmove (s1 s2 n : U32) (h : Heap Bytes) : Option (U32 × Heap Bytes) := do
  let (temp, h) ← malloc env n h
  let h := { h with world := memcpy h.world temp.toNat s2.toNat n.toNat }
  let h := { h with world := memcpy h.world s1.toNat temp.toNat n.toNat }
  let (_, h) ← free temp h
  some (s1, h)

end HeapStrings

end Crunchy
