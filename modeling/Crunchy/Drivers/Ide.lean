/-
Module: Crunchy.Drivers.Ide
Purpose: The disk driver and buffer cache of `kernel/drivers/ide.c`: the request
  queue, the interrupt handler, the cache list, and `ide_rw`, `buffer_read` and
  `buffer_write` cut at every point where an interrupt can come in between.
Trusted boundary: human-reviewed spec
Main exports: Buffer, Ide, ideOp, ideHandler, bufferInit, bufferGet, Machine,
  Machine.next
-/
import Crunchy.Types

namespace Crunchy

/-- `B_BUSY`: the buffer is in use. -/
def bBusy : BitVec 8 := 0x1#8

/-- `B_VALID`: the buffer has been read from disk. -/
def bValid : BitVec 8 := 0x2#8

/-- `B_DIRTY`: the buffer has to be written to disk. -/
def bDirty : BitVec 8 := 0x4#8

/-- `MAX_OP_BLOCKS`, the number of buffers that `buffer_init` makes. -/
def maxOpBlocks : Nat := 16

/-- `BLOCK_SIZE / SECTOR_SIZE`. -/
def sectorPerBlock : Nat := 2

/-- The address of a buffer that is not `NULL`. -/
abbrev BufferPtr := Nat

variable {Data : Type}

/-- `buffer`. What the block's bytes are is the business of the driver's callers. -/
structure Buffer (Data : Type) where
  flags : BitVec 8
  dev : U32
  block : U32
  next : Option BufferPtr
  q : Option BufferPtr
  data : Data

/-- A buffer has a flag. -/
def Buffer.Has (b : Buffer Data) (flag : BitVec 8) : Prop := b.flags &&& flag ≠ 0#8

instance (b : Buffer Data) (flag : BitVec 8) : Decidable (b.Has flag) :=
  inferInstanceAs (Decidable (_ ≠ _))

/-! ### The drive -/

/-- `LBA_LOW`, `LBA_MID`, `LBA_HIGH` and `LBA_LAST` of a sector number, put
together again by the drive. -/
def lba (sector : U32) : Nat :=
  (sector &&& 0xFF#32).toNat + (sector >>> 8 &&& 0xFF#32).toNat * 2 ^ 8 +
    (sector >>> 16 &&& 0xFF#32).toNat * 2 ^ 16 + (sector >>> 24 &&& 0xF#32).toNat * 2 ^ 24

/-- A command the drive has been given; a write command has its data with it. -/
inductive Command (Data : Type) where
  | read (sector : Nat)
  | write (sector : Nat) (data : Data)

/-- The command that `ide_op` gives for a buffer. -/
def Buffer.command (b : Buffer Data) : Command Data :=
  let sector := b.block * BitVec.ofNat 32 sectorPerBlock
  if b.Has bDirty then .write (lba sector) b.data else .read (lba sector)

/-- What `insl` gets from the drive after the command: the block, or whatever is
on the data port when the command was no read. -/
def Command.input (disk : Nat → Data) (garbage : Data) : Command Data → Data
  | .read sector => disk (sector / sectorPerBlock)
  | .write _ _ => garbage

/-- The disk after the command; with the error bit set a write has done nothing. -/
def Command.output (disk : Nat → Data) (error : Bool) : Command Data → Nat → Data
  | .read _ => disk
  | .write sector data =>
    if error then disk else Function.update disk (sector / sectorPerBlock) data

/-! ### Driver state -/

/-- The globals of the driver, the buffers, and the drive: its blocks, and the
commands whose completion interrupt has not been handled, oldest first.
`cacheCount` counts the buffers of the cache list and bounds the loops over it. -/
structure Ide (Data : Type) where
  buffers : BufferPtr → Buffer Data
  idequeue : Option BufferPtr
  cacheList : Option BufferPtr
  cacheCount : Nat
  idelock : Bool
  pending : List (Command Data)
  disk : Nat → Data

/-- Assign to fields of the buffer `b`. -/
def Ide.modify (s : Ide Data) (b : BufferPtr) (f : Buffer Data → Buffer Data) : Ide Data :=
  { s with buffers := Function.update s.buffers b (f (s.buffers b)) }

/-- A `buffer**`: the address of the list's head variable or of a link field. -/
inductive Link where
  | head
  | node (b : BufferPtr)
deriving DecidableEq

/-- `*pp` in the request queue. -/
def Ide.queueAt (s : Ide Data) : Link → Option BufferPtr
  | .head => s.idequeue
  | .node b => (s.buffers b).q

/-- `*pp = value` in the request queue. -/
def Ide.setQueueAt (s : Ide Data) (value : Option BufferPtr) : Link → Ide Data
  | .head => { s with idequeue := value }
  | .node b => s.modify b fun x => { x with q := value }

/-- `*bp` in the cache list. -/
def Ide.cacheAt (s : Ide Data) : Link → Option BufferPtr
  | .head => s.cacheList
  | .node b => (s.buffers b).next

/-- `*bp = value` in the cache list. -/
def Ide.setCacheAt (s : Ide Data) (value : Option BufferPtr) : Link → Ide Data
  | .head => { s with cacheList := value }
  | .node b => s.modify b fun x => { x with next := value }

/-! ### The request queue -/

/-- `ide_op(b)`. -/
def ideOp (b : BufferPtr) (s : Ide Data) : Ide Data :=
  { s with pending := s.pending ++ [(s.buffers b).command] }

/-- `ide_handler()` with the error bit of the status it reads and the data that
`insl` would get; `none` if it spins on `idelock`. -/
def ideHandler (error : Bool) (input : Data) (s : Ide Data) : Option (Ide Data) :=
  if s.idelock then none
  else
    match s.idequeue with
    -- `release(&idequeue)`: the wrong lock, `idelock` stays taken
    | none => some { s with idequeue := none, idelock := true }
    | some b =>
      let s := { s with idequeue := (s.buffers b).q }
      let s := s.modify b fun x =>
        if ¬x.Has bDirty ∧ error = false then { x with data := input } else x
      let s := s.modify b fun x => { x with flags := (x.flags ||| bValid) &&& ~~~bDirty }
      match s.idequeue with
      | some head => some (ideOp head s)
      | none => some s

/-- The drive finishes its oldest command and interrupts. -/
def interrupt (error : Bool) (garbage : Data) (s : Ide Data) : Option (Ide Data) :=
  match s.pending with
  | [] => none
  | done :: rest =>
    ideHandler error (done.input s.disk garbage)
      { s with pending := rest, disk := done.output s.disk error }

/-! ### The buffer cache -/

/-- The loop of `buffer_init` over all buffers but the last, and the last one. -/
def bufferInitLoop (s : Ide Data) : Nat → BufferPtr → Ide Data
  | 0, b => s.modify b fun x => { x with next := none, dev := 0xFFFFFFFF#32 }
  | more + 1, b =>
    bufferInitLoop (s.modify b fun x => { x with next := some (b + 1), dev := 0xFFFFFFFF#32 })
      more (b + 1)

/-- `buffer_init()`, with what `malloc` returned. -/
def bufferInit (list : BufferPtr) (s : Ide Data) : Ide Data :=
  bufferInitLoop { s with cacheList := some list, cacheCount := maxOpBlocks }
    (maxOpBlocks - 1) list

/-- The search of `buffer_get`: the buffer found, if any; `none` if the list
goes on for more than `fuel` buffers. -/
def findBuffer (s : Ide Data) (dev block : U32) : Nat → Option BufferPtr →
    Option (Option BufferPtr)
  | _, none => some none
  | 0, some _ => none
  | fuel + 1, some b =>
    if (s.buffers b).dev = dev ∧ (s.buffers b).block = block then some (some b)
    else findBuffer s dev block fuel (s.buffers b).next

/-- The second loop of `buffer_get`: the link at which the list ends. -/
def endOfList (s : Ide Data) : Nat → Link → Option Link
  | fuel, bp =>
    match s.cacheAt bp, fuel with
    | none, _ => some bp
    | some _, 0 => none
    | some b, fuel + 1 => endOfList s fuel (.node b)

/-- `buffer_get(dev, block)`; `new` and `memory` are what `malloc` would return
and what is in it. `none` if the cache list never ends. -/
def bufferGet (dev block : U32) (new : BufferPtr) (memory : Buffer Data) (s : Ide Data) :
    Option (BufferPtr × Ide Data) :=
  match findBuffer s dev block s.cacheCount s.cacheList with
  | none => none
  | some (some b) =>
    some (b, if (s.buffers b).Has bBusy then s
      else s.modify b fun x => { x with flags := x.flags ||| bBusy })
  | some none =>
    match endOfList s s.cacheCount .head with
    | none => none
    | some bp =>
      let s := s.modify new fun _ => memory
      let s := { s.setCacheAt (some new) bp with cacheCount := s.cacheCount + 1 }
      some (new, s.modify new fun x => { x with dev := dev, block := block, flags := bBusy })

/-! ### `ide_rw`, `buffer_read` and `buffer_write`, step by step

Interrupts are on while these run, so that `ide_handler` can come between any
two of their statements. -/

/-- Where `ide_rw(b)` is: at its tests, at `b->q = 0`, in the loop, at `*pp = b`,
at the test whether to start the drive, before its return. -/
inductive RwAt where
  | tests
  | clear
  | walk (pp : Link)
  | link (pp : Link)
  | start
  | finish
deriving DecidableEq

/-- Who called `ide_rw`. The result of a nested `buffer_read` is thrown away, so
that of its callers only the buffer of the outermost one matters. -/
inductive Caller where
  | read (block : U32) (outer : Option BufferPtr)
  | write
deriving DecidableEq

/-- Where the kernel is. `idle` holds the block and the result of the last call
if that was a `buffer_read(1, block)`. -/
inductive Thread where
  | idle (result : Option (U32 × BufferPtr))
  | get (block : U32) (outer : Option BufferPtr)
  | got (block : U32) (outer : Option BufferPtr) (b : BufferPtr)
  | mark (b : BufferPtr)
  | rw (caller : Caller) (b : BufferPtr) (pc : RwAt)
  | retry (block : U32) (outer : Option BufferPtr) (b : BufferPtr) (i : Int)
deriving DecidableEq

/-- The driver and the code that runs in it. -/
structure Machine (Data : Type) where
  ide : Ide Data
  thread : Thread

/-- `return i` of `ide_rw(b)`. -/
def rwReturn (b : BufferPtr) (i : Int) : Caller → Thread
  | .read block outer => .retry block outer b i
  | .write => .idle none

/-- One statement of `ide_rw(b)`. -/
def ideRw (caller : Caller) (b : BufferPtr) (s : Ide Data) : RwAt → Machine Data
  | .tests =>
    if (s.buffers b).flags &&& (bValid ||| bDirty) = bValid then ⟨s, rwReturn b (-1) caller⟩
    else if (s.buffers b).dev ≠ 1#32 then ⟨s, rwReturn b (-2) caller⟩
    else ⟨s, .rw caller b .clear⟩
  | .clear => ⟨s.modify b fun x => { x with q := none }, .rw caller b (.walk .head)⟩
  | .walk pp =>
    match s.queueAt pp with
    | some x => ⟨s, .rw caller b (.walk (.node x))⟩
    | none => ⟨s, .rw caller b (.link pp)⟩
  | .link pp => ⟨s.setQueueAt (some b) pp, .rw caller b .start⟩
  | .start => ⟨if s.idequeue = some b then ideOp b s else s, .rw caller b .finish⟩
  | .finish => ⟨s, rwReturn b 0 caller⟩

/-- One statement of the running call; `none` if there is none or the statement
does not end. -/
def Machine.advance (new : BufferPtr) (memory : Buffer Data) (m : Machine Data) :
    Option (Machine Data) :=
  match m.thread with
  | .idle _ => none
  | .get block outer =>
    match bufferGet 1#32 block new memory m.ide with
    | none => none
    | some (b, s) => some ⟨s, .got block outer b⟩
  | .got block outer b =>
    if (m.ide.buffers b).Has bValid then some { m with thread := .retry block outer b (-1) }
    else some { m with thread := .rw (.read block outer) b .tests }
  | .mark b =>
    some ⟨m.ide.modify b fun x => { x with flags := x.flags ||| bDirty }, .rw .write b .tests⟩
  | .rw caller b pc => some (ideRw caller b m.ide pc)
  | .retry block outer b i =>
    -- `i == -1 & !(..)` reads `(i == -1) & (!(..))`
    if i = -1 ∧ ¬(m.ide.buffers b).Has bValid then
      some { m with thread := .get block (some (outer.getD b)) }
    else some { m with thread := .idle (some (block, outer.getD b)) }

/-- What can happen: a call of `buffer_read(1, block)` or `buffer_write(b)`, a
store into a buffer's data, the next statement of the running call, a completion
interrupt. -/
inductive IdeEvent (Data : Type) where
  | read (block : U32)
  | write (b : BufferPtr)
  | store (b : BufferPtr) (data : Data)
  | advance (new : BufferPtr) (memory : Buffer Data)
  | interrupt (error : Bool) (garbage : Data)

/-- The machine after an event, if the event can happen. -/
def Machine.next (m : Machine Data) : IdeEvent Data → Option (Machine Data)
  | .read block =>
    match m.thread with
    | .idle _ => some { m with thread := .get block none }
    | _ => none
  | .write b =>
    match m.thread with
    | .idle _ => some { m with thread := .mark b }
    | _ => none
  | .store b data =>
    match m.thread with
    | .idle _ => some ⟨m.ide.modify b fun x => { x with data := data }, .idle none⟩
    | _ => none
  | .advance new memory => m.advance new memory
  | .interrupt error garbage =>
    match interrupt error garbage m.ide with
    | some s => some { m with ide := s }
    | none => none

end Crunchy
