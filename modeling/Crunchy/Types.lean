/-
Module: Crunchy.Types
Purpose: The machine types and address macros of `kernel/include/types.h`.
Trusted boundary: human-reviewed spec
Main exports: U32, null, kernelVirt, p2v, v2p, pageOf
-/
import Crunchy.Lib.Masks

namespace Crunchy

/-- `uint32_t`, which is also what a pointer is on this machine. -/
abbrev U32 := BitVec 32

/-- `NULL`. -/
def null : U32 := 0#32

/-- `KERNEL_VIRT`, the start of the kernel window. -/
def kernelVirt : U32 := 0xC0000000#32

/-- `P2V(x)`: physical address to its place in the kernel window. -/
def p2v (x : U32) : U32 :=
  if x ≤ kernelVirt then x + kernelVirt else x

/-- `V2P(x)`: an address of the kernel window to its physical address. -/
def v2p (x : U32) : U32 :=
  if kernelVirt ≤ x then x - kernelVirt else x

/-- The 4 KB page an address lies in. -/
def pageOf (p : U32) : U32 := p &&& ~~~0xFFF#32

/-- `x & ~0xFFF` rounds down to a page boundary. -/
@[simp] theorem toNat_and_not_fff (x : U32) :
    (x &&& ~~~0xFFF#32).toNat = x.toNat / 4096 * 4096 :=
  Lib.toNat_and_not_lowMask (k := 12) x (by decide)

/-- `x & ~0x3FF` rounds down to a multiple of 1024. -/
@[simp] theorem toNat_and_not_3ff (x : U32) :
    (x &&& ~~~0x3FF#32).toNat = x.toNat / 1024 * 1024 :=
  Lib.toNat_and_not_lowMask (k := 10) x (by decide)

/-- A word below `2 ^ 31` is the same number as a C `int`. -/
theorem toInt_of_small {x : U32} (small : x.toNat < 2 ^ 31) : x.toInt = x.toNat :=
  BitVec.toInt_eq_toNat_of_lt (by omega)

@[simp] theorem toNat_and_3ff (x : U32) : (x &&& 0x3FF#32).toNat = x.toNat % 1024 :=
  Lib.toNat_and_lowMask (k := 10) x (by decide)

end Crunchy
