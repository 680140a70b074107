/-
Module: Crunchy.Mem.PageCopy
Purpose: `page_copy` of `kernel/mem/paging.c`, over the bytes of physical frames. The
  two directories are given by what `_virt_to_phys` returns for them, and each frame
  is reached through a page of its own in the current address space, as
  `k_phys_to_virt` or a temporary mapping provides it.
Trusted boundary: human-reviewed spec
Main exports: FrameBytes, frameOf, copyFrame, pageCopy
-/
import Crunchy.Types

namespace Crunchy

/-- The bytes of physical memory, by frame and offset in the frame. -/
abbrev FrameBytes := U32 → Nat → BitVec 8

/-- The frame of a page-table entry. -/
def frameOf (entry : U32) : U32 := entry >>> 12

/-- `memcpy(va_dest + off, va_src + off, cp)`, where the two pages give access to the
frames of the entries `pa_dest` and `pa_src`. `none` where it leaves these pages. -/
def copyFrame (paDest paSrc : U32) (off cp : Nat) (frames : FrameBytes) : Option FrameBytes :=
  if off + cp ≤ 0x1000 then
    some (Function.update frames (frameOf paDest) fun o =>
      if off ≤ o ∧ o < off + cp then frames (frameOf paSrc) o else frames (frameOf paDest) o)
  else none

/-- The loop of `page_copy`; `dest` and `src` are `_virt_to_phys` of the two
directories. A missing page is reported and ends the call. `none` when `fuel` runs
out. -/
def pageCopyLoop (dest src : U32 → U32) (n : U32) :
    (fuel : Nat) → (i va0 off sz : U32) → FrameBytes → Option FrameBytes
  | 0, _, _, _, _, _ => none
  | fuel + 1, i, va0, off, sz, frames =>
    if i < n then
      let va0 := va0 + 0x1000#32
      let cp := if 0x1000#32 ≤ sz then 0x1000#32 - off else sz
      let paSrc := src va0
      let paDest := dest va0
      if paSrc = 0#32 then some frames
      else if paDest = 0#32 then some frames
      else do
        let frames ← copyFrame paDest paSrc off.toNat cp.toNat frames
        pageCopyLoop dest src n fuel (i + 0x1000#32) va0 0#32 (sz - cp) frames
    else some frames

/-- `page_copy(dest, src, virt, n)`. The counter passes `n` within `2 ^ 20` rounds or
never: past `0xFFFFF000` it wraps. -/
def pageCopy (dest src : U32 → U32) (virt n : U32) (frames : FrameBytes) : Option FrameBytes :=
  let va0 := virt &&& ~~~0xFFF#32
  let off := virt - va0
  pageCopyLoop dest src n (2 ^ 20 + 1) 0#32 va0 off n frames

end Crunchy
