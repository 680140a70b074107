/-
Module: Crunchy.Arch.Sched
Purpose: The spinlock of `kernel/arch/sched.s`, instruction by instruction: what
  `acquire` and `release` do on each of several processors that share the memory.
Trusted boundary: human-reviewed spec
Main exports: Instr, acquire, release, Call, Processor, Smp, Smp.next
-/
import Crunchy.Types

namespace Crunchy.Sched

/-- The instructions that the two routines are made of. -/
inductive Instr where
  /-- `mov ecx, [esp+4]` -/
  | movEcxArgument
  /-- `mov eax, x` -/
  | movEax (x : U32)
  /-- `xchg eax, [ecx]` -/
  | xchgEax
  /-- `test eax, eax` -/
  | testEax
  | pause
  | jnz (target : Nat)
  | ret
deriving DecidableEq

/-- `acquire`. -/
def acquire : List Instr :=
  [.movEcxArgument, .movEax 1#32, .xchgEax, .testEax, .pause, .jnz 0, .ret]

/-- `release`. -/
def release : List Instr := [.movEcxArgument, .movEax 0#32, .xchgEax, .ret]

inductive Routine where
  | acquire
  | release
deriving DecidableEq

def Routine.code : Routine → List Instr
  | .acquire => Sched.acquire
  | .release => Sched.release

/-- A processor inside a routine: its argument, the next instruction and the
registers. -/
structure Call where
  routine : Routine
  lock : U32
  pc : Nat
  eax : U32
  ecx : U32
  zf : Bool

/-- A processor; `held` are the locks its calls of `acquire` have come back for
and it has not called `release` for since. -/
structure Processor where
  call : Option Call
  held : U32 → Bool

/-- The processors `P` and the words in the memory they share. -/
structure Smp (P : Type) where
  words : U32 → U32
  cpus : P → Processor

/-- One instruction of a call; `none` for the call when it returns. An `xchg` with
a word in memory is atomic. -/
def Call.exec (c : Call) (words : U32 → U32) : Instr → Option Call × (U32 → U32)
  | .movEcxArgument => (some { c with pc := c.pc + 1, ecx := c.lock }, words)
  | .movEax x => (some { c with pc := c.pc + 1, eax := x }, words)
  | .xchgEax =>
    (some { c with pc := c.pc + 1, eax := words c.ecx }, Function.update words c.ecx c.eax)
  | .testEax => (some { c with pc := c.pc + 1, zf := c.eax = 0#32 }, words)
  | .pause => (some { c with pc := c.pc + 1 }, words)
  | .jnz target => (some { c with pc := if c.zf then c.pc + 1 else target }, words)
  | .ret => (none, words)

/-- What a processor can do: call a routine, with whatever is in its registers, or
execute the next instruction. -/
inductive Action where
  | enter (routine : Routine) (lock eax ecx : U32) (zf : Bool)
  | execute

/-- A processor calls a routine. It calls `release` for a lock that it holds. -/
def Processor.enter (p : Processor) (routine : Routine) (lock eax ecx : U32) (zf : Bool) :
    Option Processor :=
  match p.call, routine with
  | some _, _ => none
  | none, .acquire => some { p with call := some ⟨.acquire, lock, 0, eax, ecx, zf⟩ }
  | none, .release =>
    if p.held lock then
      some ⟨some ⟨.release, lock, 0, eax, ecx, zf⟩, Function.update p.held lock false⟩
    else none

/-- A processor goes on after an instruction of the call `c`. -/
def Processor.resume (p : Processor) (c : Call) : Option Call → Processor
  | some next => { p with call := some next }
  | none =>
    match c.routine with
    | .acquire => ⟨none, Function.update p.held c.lock true⟩
    | .release => { p with call := none }

/-- What the processor `p` does next to itself and to the memory. -/
def Processor.next (p : Processor) (words : U32 → U32) :
    Action → Option (Processor × (U32 → U32))
  | .enter routine lock eax ecx zf =>
    (p.enter routine lock eax ecx zf).map fun after => (after, words)
  | .execute =>
    match p.call with
    | none => none
    | some c =>
      match c.routine.code[c.pc]? with
      | none => none
      | some instr => some (p.resume c (c.exec words instr).1, (c.exec words instr).2)

/-- The machine after an action of one processor. -/
def Smp.next {P : Type} [DecidableEq P] (m : Smp P) (who : P) (action : Action) :
    Option (Smp P) :=
  ((m.cpus who).next m.words action).map fun after =>
    ⟨after.2, Function.update m.cpus who after.1⟩

end Crunchy.Sched
