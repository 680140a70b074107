/-
Module: Crunchy.Process.UserHeap
Purpose: The heap of a user program: `sys_sbrk` and system call 8 of
  `kernel/syscall.c`, and `heap_init` and `malloc` of `libc/usr/glue.c`, which
  keep the boundary of the heap a second time.
Trusted boundary: human-reviewed spec
Main exports: sysSbrk, Process, Process.heapInit, Process.malloc
-/
import Crunchy.Process.Elf

namespace Crunchy

/-- The loop `for (int i = n; i > 0; i -= 0x1000)` of `sys_sbrk`, with the break. -/
def sysSbrkLoop (pd : U32) : Nat → Int → U32 → Kernel → Option (U32 × Kernel)
  | 0, _, _, _ => none
  | rounds + 1, i, brk, k =>
    if 0 < i then do
      let (phys, k) ← k.pageAlloc
      let k ← k.pagingMap pd phys brk 0x7#32
      sysSbrkLoop pd rounds (i - 0x1000) (brk + 0x1000#32) k
    else some (brk, k)

/-- `sys_sbrk(m, n)`. The request is taken for an `int`, so it is at most `2 ^ 19`
pages, and none at all from `2 ^ 31` bytes on. -/
def sysSbrk (m : ProcMmap) (n : U32) (k : Kernel) : Option (ProcMmap × Kernel) := do
  let (brk, k) ← sysSbrkLoop m.pd (2 ^ 19 + 1) n.toInt m.brk k
  some ({ m with brk }, k)

/-- A user program as far as its heap goes: the kernel, `cp_mmap`, and the two
globals of `glue.c`. -/
structure Process where
  kernel : Kernel
  cpMmap : ProcMmap
  heapBase : U32
  heapLow : U32

/-- The program `elf_load` enters: both globals are still zero. -/
def Loaded.process (l : Loaded) : Process :=
  { kernel := l.machine.kernel, cpMmap := l.cpMmap, heapBase := 0#32, heapLow := 0#32 }

namespace Process

/-- `syscall_one(8, ebx)`: the kernel runs `sys_sbrk(&cp_mmap, ebx)` and returns the
new break. -/
def syscallEight (ebx : U32) (p : Process) : Option (U32 × Process) := do
  let (cpMmap, kernel) ← sysSbrk p.cpMmap ebx p.kernel
  some (cpMmap.brk, { p with cpMmap, kernel })

/-- `heap_init()`, which is what `crt_initialize()` does. -/
def heapInit (p : Process) : Option Process := do
  let (brk, p) ← p.syscallEight 0#32
  some { p with heapLow := brk, heapBase := brk }

/-- `malloc(n)`. -/
def malloc (n : U32) (p : Process) : Option (U32 × Process) := do
  let heapLow := p.heapLow + n
  if p.heapBase + 0x1000#32 ≤ heapLow then
    let (brk, p) ← { p with heapLow }.syscallEight (heapLow - p.heapBase)
    some (heapLow - n, { p with heapBase := brk })
  else some (heapLow - n, { p with heapLow })

end Process

end Crunchy
