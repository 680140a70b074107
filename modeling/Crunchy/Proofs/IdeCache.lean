/-
Module: Crunchy.Proofs.IdeCache
Purpose: The buffer cache is a plain disk with buffers over it, as long as every command's
  completion is handled before `ide_rw` returns.
Trusted boundary: none
Main exports: SyncGuard, CacheInvariant, cache_refines_volume, read_delivers_block,
  read_without_block
-/
import Crunchy.Proofs.IdeQueue
import Mathlib.Data.Finset.Basic

namespace Crunchy

open Lib List

variable {Data : Type}

variable {memory : Buffer Data} {new : BufferPtr} {result : Option (U32 × BufferPtr)}

/-! ### The synchronous schedule -/

/-- Blocks from here on are beyond the 28 bits of a sector number. -/
def blockLimit : Nat := 2 ^ 27

/-- `ide_rw` is about to return. -/
def Thread.finishing : Thread → Bool
  | .rw _ _ .finish => true
  | _ => false

/-- The drive never reports an error, and `ide_rw` returns only when the interrupt
of every command has been handled; blocks are asked for below a limit. -/
def SyncGuard (limit : Nat) (run : IdeRun Data) : IdeEvent Data → Prop
  | .advance _ _ => run.machine.thread.finishing → run.ide.pending.isEmpty
  | .interrupt error _ => error = false
  | .read block => block.toNat < limit
  | .write _ => True
  | .store _ _ => True

instance (limit : Nat) (run : IdeRun Data) :
    (event : IdeEvent Data) → Decidable (SyncGuard limit run event)
  | .advance _ _ => inferInstanceAs (Decidable (_ → _))
  | .interrupt _ _ => inferInstanceAs (Decidable (_ = _))
  | .read _ => inferInstanceAs (Decidable (_ < _))
  | .write _ => .isTrue trivial
  | .store _ _ => .isTrue trivial

/-! ### What a buffer holds -/

/-- The buffer has what a reader of its block should see. -/
structure Settled (volume : Volume Data) (x : Buffer Data) : Prop where
  valid : x.Has bValid
  clean : ¬x.Has bDirty
  data : x.data = volume.view x.block

/-- The block has to be read from the disk first. -/
structure Unread (volume : Volume Data) (x : Buffer Data) : Prop where
  invalid : ¬x.Has bValid
  clean : ¬x.Has bDirty
  view : volume.view x.block = volume.disk x.block

/-- The buffer has to go to the disk. -/
structure Marked (volume : Volume Data) (x : Buffer Data) : Prop where
  valid : x.Has bValid
  dirty : x.Has bDirty
  data : x.data = volume.view x.block
  disk : volume.disk x.block = x.data

/-- The disk has what it should have, up to the block being written. -/
def Ide.Agrees (s : Ide Data) (volume : Volume Data) (exempt : Option U32) : Prop :=
  ∀ block : U32, block.toNat < blockLimit → exempt ≠ some block →
    s.disk block.toNat = volume.disk block

/-- Nothing is queued and the drive has nothing to do. -/
def Ide.Quiet (s : Ide Data) : Prop := s.idequeue = none ∧ s.pending = []

/-- The request of a call of `ide_rw`. -/
def Caller.Asks (volume : Volume Data) (x : Buffer Data) : Caller → Prop
  | .read block outer => outer = none ∧ x.block = block ∧ Unread volume x
  | .write => Marked volume x

/-- The block that a request is going to write. -/
def Caller.writes (x : Buffer Data) : Caller → Option U32
  | .read _ _ => none
  | .write => some x.block

/-- What is left to know for the caller when its request has been served. -/
def Caller.Served (x : Buffer Data) : Caller → Prop
  | .read block outer => outer = none ∧ x.block = block
  | .write => True

/-- A request that has not been served. -/
def Requesting (s : Ide Data) (volume : Volume Data) (caller : Caller) (b : BufferPtr) : Prop :=
  caller.Asks volume (s.buffers b) ∧ s.Agrees volume (caller.writes (s.buffers b))

/-- The stages of `ide_rw` under the synchronous schedule. -/
def RwStage (s : Ide Data) (volume : Volume Data) (caller : Caller) (b : BufferPtr) : RwAt → Prop
  | .tests => s.Quiet ∧ Requesting s volume caller b
  | .clear => s.Quiet ∧ Requesting s volume caller b
  | .walk pp => s.Quiet ∧ Requesting s volume caller b ∧ pp = .head ∧ (s.buffers b).q = none
  | .link pp => s.Quiet ∧ Requesting s volume caller b ∧ pp = .head ∧ (s.buffers b).q = none
  | .start => s.idequeue = some b ∧ s.pending = [] ∧ Requesting s volume caller b ∧
      (s.buffers b).q = none
  | .finish =>
    s.idequeue = some b ∧ s.pending = [(s.buffers b).command] ∧
      Requesting s volume caller b ∧ (s.buffers b).q = none ∨
    s.Quiet ∧ s.Agrees volume none ∧ Settled volume (s.buffers b) ∧ caller.Served (s.buffers b)

/-- The stages of a call. -/
def Stage (s : Ide Data) (volume : Volume Data) (nodes : List BufferPtr) : Thread → Prop
  | .idle result => s.Quiet ∧ s.Agrees volume none ∧ ∀ block b, result = some (block, b) →
      b ∈ nodes ∧ (s.buffers b).dev = 1#32 ∧ (s.buffers b).block = block
  | .get block outer => s.Quiet ∧ s.Agrees volume none ∧ outer = none ∧ block.toNat < blockLimit
  | .got block outer b => s.Quiet ∧ s.Agrees volume none ∧ outer = none ∧
      (s.buffers b).block = block ∧ (Settled volume (s.buffers b) ∨ Unread volume (s.buffers b))
  | .mark b => s.Quiet ∧ s.Agrees volume (some (s.buffers b).block) ∧
      Settled volume (s.buffers b) ∧ volume.disk (s.buffers b).block = (s.buffers b).data
  | .rw caller b pc => RwStage s volume caller b pc
  | .retry block outer b _ => s.Quiet ∧ s.Agrees volume none ∧ outer = none ∧
      (s.buffers b).block = block ∧ Settled volume (s.buffers b)

/-- What holds between any two statements under the synchronous schedule: the
cache has one buffer for a block at most, all but the one the running call works
on are settled, and a block without a buffer is on the disk as its readers should
see it. -/
structure CacheInvariant (s : Ide Data) (thread : Thread) (volume : Volume Data)
    (nodes : List BufferPtr) : Prop where
  cache : CacheList s nodes
  unlocked : s.idelock = false
  kinds : ∀ b ∈ nodes, (s.buffers b).dev = 0xFFFFFFFF#32 ∨
    (s.buffers b).dev = 1#32 ∧ (s.buffers b).block.toNat < blockLimit
  distinct : ∀ b ∈ nodes, ∀ x ∈ nodes, (s.buffers b).dev = 1#32 → (s.buffers x).dev = 1#32 →
    (s.buffers b).block = (s.buffers x).block → b = x
  current : ∀ b, thread.buffer = some b → b ∈ nodes ∧ (s.buffers b).dev = 1#32
  settled : ∀ b ∈ nodes, (s.buffers b).dev = 1#32 → thread.buffer ≠ some b →
    Settled volume (s.buffers b)
  uncached : ∀ block : U32, (∀ b ∈ nodes, (s.buffers b).dev = 1#32 →
    (s.buffers b).block ≠ block) → volume.view block = volume.disk block
  stage : Stage s volume nodes thread

/-! ### Flags and sector numbers -/

private theorem valid_or_busy (f : BitVec 8) :
    (f ||| bBusy) &&& bValid = f &&& bValid ∧ (f ||| bBusy) &&& bDirty = f &&& bDirty := by
  revert f
  decide

private theorem valid_or_dirty (f : BitVec 8) :
    (f ||| bDirty) &&& bValid = f &&& bValid ∧ (f ||| bDirty) &&& bDirty ≠ 0#8 := by
  revert f
  decide

private theorem valid_served (f : BitVec 8) :
    ((f ||| bValid) &&& ~~~bDirty) &&& bValid ≠ 0#8 ∧
      ((f ||| bValid) &&& ~~~bDirty) &&& bDirty = 0#8 := by
  revert f
  decide

theorem Settled.busy {volume : Volume Data} {x : Buffer Data} (settled : Settled volume x) :
    Settled volume { x with flags := x.flags ||| bBusy } := by
  obtain ⟨valid, dirty⟩ := valid_or_busy x.flags
  refine ⟨?_, ?_, settled.data⟩
  · unfold Buffer.Has
    rw [valid]
    exact settled.valid
  · unfold Buffer.Has
    rw [dirty]
    exact settled.clean

/-- The first test of `ide_rw`: only `B_VALID` is set. -/
private theorem only_valid_iff (f : BitVec 8) :
    f &&& (bValid ||| bDirty) = bValid ↔ f &&& bValid ≠ 0#8 ∧ ¬f &&& bDirty ≠ 0#8 := by
  revert f
  decide

/-- The drive gets the low 28 bits of the sector number. -/
theorem lba_eq (sector : U32) : lba sector = sector.toNat % 2 ^ 28 := by
  have byte (x : U32) : (x &&& 0xFF#32).toNat = x.toNat % 2 ^ 8 :=
    toNat_and_lowMask (k := 8) x (by decide)
  have nibble (x : U32) : (x &&& 0xF#32).toNat = x.toNat % 2 ^ 4 :=
    toNat_and_lowMask (k := 4) x (by decide)
  unfold lba
  rw [byte, byte, byte, nibble, toNat_ushiftRight_div, toNat_ushiftRight_div,
    toNat_ushiftRight_div]
  omega

/-- Below the limit the drive is told the block that the buffer is for. -/
theorem lba_block {block : U32} (inside : block.toNat < blockLimit) :
    lba (block * BitVec.ofNat 32 sectorPerBlock) / sectorPerBlock = block.toNat := by
  rw [lba_eq, BitVec.toNat_mul]
  simp only [sectorPerBlock, BitVec.toNat_ofNat, blockLimit] at *
  omega

/-! ### One step -/

/-- The block that the running call is to return, or that the last one returned. -/
def Thread.reading : Thread → Option U32
  | .idle result => result.map Prod.fst
  | .get block _ => some block
  | .got block _ _ => some block
  | .mark _ => none
  | .rw (.read block _) _ _ => some block
  | .rw .write _ _ => none
  | .retry block _ _ _ => some block

/-- How many steps the running call still has to go. -/
def Machine.rank (m : Machine Data) : Nat :=
  match m.thread with
  | .idle _ => 0
  | .retry _ _ _ _ => 1
  | .rw _ _ .finish => 2 + m.ide.pending.length
  | .rw _ _ .start => 4
  | .rw _ _ (.link _) => 5
  | .rw _ _ (.walk _) => 6
  | .rw _ _ .clear => 7
  | .rw _ _ .tests => 8
  | .mark _ => 9
  | .got _ _ _ => 9
  | .get _ _ => 10

/-- The running call has come one step further. -/
structure Advances (before : Machine Data) (volume : Volume Data) (after : Machine Data) :
    Prop where
  invariant : ∃ nodes, CacheInvariant after.ide after.thread volume nodes
  closer : after.rank < before.rank
  reading : after.thread.reading = before.thread.reading

namespace CacheInvariant

variable {s s' : Ide Data} {thread thread' : Thread} {volume : Volume Data}
  {nodes : List BufferPtr} {b : BufferPtr} {caller : Caller} {block : U32}
  {outer : Option BufferPtr} {pc : RwAt}

/-- A step that changes no link of the cache list and no buffer's block. -/
theorem of_fields {volume' : Volume Data} (inv : CacheInvariant s thread volume nodes)
    (same : ∀ x, (s'.buffers x).next = (s.buffers x).next ∧
      (s'.buffers x).dev = (s.buffers x).dev ∧ (s'.buffers x).block = (s.buffers x).block)
    (globals : s'.cacheList = s.cacheList ∧ s'.cacheCount = s.cacheCount ∧
      s'.idelock = s.idelock)
    (current : ∀ x, thread'.buffer = some x → x ∈ nodes ∧ (s.buffers x).dev = 1#32)
    (settled : ∀ x ∈ nodes, (s.buffers x).dev = 1#32 → thread'.buffer ≠ some x →
      Settled volume' (s'.buffers x))
    (uncached : ∀ block : U32, (∀ x ∈ nodes, (s.buffers x).dev = 1#32 →
      (s.buffers x).block ≠ block) → volume'.view block = volume'.disk block)
    (stage : Stage s' volume' nodes thread') : CacheInvariant s' thread' volume' nodes := by
  have sameDev := fun x => (same x).2.1
  have sameBlock := fun x => (same x).2.2
  constructor
  case cache => exact inv.cache.congr globals.1 globals.2.1 fun x => (same x).1
  case unlocked => rw [globals.2.2, inv.unlocked]
  case kinds =>
    intro x member
    rw [sameDev x, sameBlock x]
    exact inv.kinds x member
  case distinct =>
    intro x member y member' devX devY sameKey
    rw [sameDev] at devX devY
    rw [sameBlock, sameBlock] at sameKey
    exact inv.distinct x member y member' devX devY sameKey
  case current =>
    intro x isBuffer
    rw [sameDev]
    exact current x isBuffer
  case settled =>
    intro x member devX notBuffer
    rw [sameDev] at devX
    exact settled x member devX notBuffer
  case uncached =>
    intro block absent
    apply uncached
    intro x member devX
    rw [← sameBlock x]
    exact absent x member (by rw [sameDev]; exact devX)
  case stage => exact stage

/-- A step of a call writes at most to the buffer the call works on, and not to
what identifies it; the call goes on with that buffer or leaves it settled. -/
theorem of_current (inv : CacheInvariant s thread volume nodes)
    (isCurrent : thread.buffer = some b) (others : ∀ x ≠ b, s'.buffers x = s.buffers x)
    (same : (s'.buffers b).next = (s.buffers b).next ∧
      (s'.buffers b).dev = (s.buffers b).dev ∧ (s'.buffers b).block = (s.buffers b).block)
    (globals : s'.cacheList = s.cacheList ∧ s'.cacheCount = s.cacheCount ∧
      s'.idelock = s.idelock)
    (goesOn : thread'.buffer = some b ∨ thread'.buffer = none ∧ Settled volume (s'.buffers b))
    (stage : Stage s' volume nodes thread') : CacheInvariant s' thread' volume nodes := by
  refine inv.of_fields ?_ globals ?_ ?_ inv.uncached stage
  · intro x
    by_cases isB : x = b
    · rw [isB]
      exact same
    · rw [others x isB]
      exact ⟨rfl, rfl, rfl⟩
  · intro x isBuffer
    rcases goesOn with still | ⟨none, _⟩
    · obtain rfl : b = x := Option.some.inj (still.symm.trans isBuffer)
      exact inv.current b isCurrent
    · rw [none] at isBuffer
      cases isBuffer
  · intro x member devX notBuffer
    by_cases isB : x = b
    · subst isB
      rcases goesOn with still | ⟨_, settled⟩
      · exact absurd still notBuffer
      · exact settled
    · rw [others x isB]
      apply inv.settled x member devX
      rw [isCurrent]
      exact fun same => isB (Option.some.inj same).symm

/-- The same for a write to that buffer. -/
theorem of_modify (inv : CacheInvariant s thread volume nodes)
    (isCurrent : thread.buffer = some b) {f : Buffer Data → Buffer Data}
    (same : (f (s.buffers b)).next = (s.buffers b).next ∧
      (f (s.buffers b)).dev = (s.buffers b).dev ∧ (f (s.buffers b)).block = (s.buffers b).block)
    (goesOn : thread'.buffer = some b) (stage : Stage (s.modify b f) volume nodes thread') :
    CacheInvariant (s.modify b f) thread' volume nodes := by
  apply inv.of_current isCurrent (fun x other => s.modify_other f other) _ ⟨rfl, rfl, rfl⟩
    (.inl goesOn) stage
  rw [Ide.modify_self]
  exact same

/-- Statements that leave the driver's state alone. -/
theorem of_thread (inv : CacheInvariant s thread volume nodes)
    (isCurrent : thread.buffer = some b)
    (goesOn : thread'.buffer = some b ∨ thread'.buffer = none ∧ Settled volume (s.buffers b))
    (stage : Stage s volume nodes thread') : CacheInvariant s thread' volume nodes :=
  inv.of_current isCurrent (fun _ _ => rfl) ⟨rfl, rfl, rfl⟩ ⟨rfl, rfl, rfl⟩ goesOn stage

/-- `buffer_get` finds a buffer. -/
private theorem hit (inv : CacheInvariant s (.get block outer) volume nodes)
    (settled : ∀ x ∈ nodes, (s.buffers x).dev = 1#32 → Settled volume (s.buffers x))
    (member : b ∈ nodes) (hasDev : (s.buffers b).dev = 1#32)
    (hasBlock : (s.buffers b).block = block) :
    CacheInvariant (s.modify b fun x => { x with flags := x.flags ||| bBusy })
      (.got block outer b) volume nodes := by
  obtain ⟨quiet, agrees, outermost, _⟩ := inv.stage
  have kept : ∀ x ∈ nodes, (s.buffers x).dev = 1#32 → Settled volume
      ((s.modify b fun x => { x with flags := x.flags ||| bBusy }).buffers x) := by
    intro x member devX
    by_cases isB : x = b
    · subst isB
      rw [Ide.modify_self]
      exact (settled x member devX).busy
    · rw [s.modify_other _ isB]
      exact settled x member devX
  refine inv.of_fields ?_ ⟨rfl, rfl, rfl⟩ ?_ (fun x member devX _ => kept x member devX) inv.uncached
    ⟨quiet, agrees, outermost, ?_, .inl (kept b member hasDev)⟩
  · exact fun x => ⟨s.modify_field b Buffer.next rfl x, s.modify_field b Buffer.dev rfl x,
      s.modify_field b Buffer.block rfl x⟩
  · rintro _ ⟨⟩
    exact ⟨member, hasDev⟩
  · rw [Ide.modify_self]
    exact hasBlock

section Append

variable {new : BufferPtr} {memory : Buffer Data}

/-- The buffers that were in the list keep their device and their block. -/
private theorem appended_keys (unused : new ∉ nodes)
    (appended : Appended s 1#32 block new memory s') : ∀ x ∈ nodes,
    (s'.buffers x).dev = (s.buffers x).dev ∧ (s'.buffers x).block = (s.buffers x).block := by
  intro x member
  obtain ⟨next, same⟩ := appended.kept x fun isNew => unused (isNew ▸ member)
  rw [same]
  exact ⟨rfl, rfl⟩

/-- With a buffer for a block that had none there is still one for a block at most. -/
private theorem appended_distinct (inv : CacheInvariant s thread volume nodes)
    (unused : new ∉ nodes)
    (absent : ∀ b ∈ nodes, ¬((s.buffers b).dev = 1#32 ∧ (s.buffers b).block = block))
    (appended : Appended s 1#32 block new memory s') :
    ∀ x ∈ nodes ++ [new], ∀ y ∈ nodes ++ [new], (s'.buffers x).dev = 1#32 →
      (s'.buffers y).dev = 1#32 → (s'.buffers x).block = (s'.buffers y).block → x = y := by
  have keys := appended_keys unused appended
  have newBlock : (s'.buffers new).block = block := by rw [appended.added]
  -- an old buffer for the block would have been found
  have apart : ∀ x ∈ nodes, (s'.buffers x).dev = 1#32 →
      (s'.buffers x).block ≠ (s'.buffers new).block := by
    intro x member devX blockX
    rw [(keys x member).1] at devX
    rw [(keys x member).2, newBlock] at blockX
    exact absent x member ⟨devX, blockX⟩
  intro x memberX y memberY devX devY sameBlock
  rcases mem_append.mp memberX with oldX | newX
  · rcases mem_append.mp memberY with oldY | newY
    · rw [(keys x oldX).1] at devX
      rw [(keys y oldY).1] at devY
      rw [(keys x oldX).2, (keys y oldY).2] at sameBlock
      exact inv.distinct x oldX y oldY devX devY sameBlock
    · rw [mem_singleton.mp newY] at sameBlock
      exact absurd sameBlock (apart x oldX devX)
  · rw [mem_singleton.mp newX] at sameBlock ⊢
    rcases mem_append.mp memberY with oldY | newY
    · exact absurd sameBlock.symm (apart y oldY devY)
    · exact (mem_singleton.mp newY).symm

/-- `buffer_get` makes a buffer. -/
private theorem miss (inv : CacheInvariant s (.get block outer) volume nodes)
    (settled : ∀ x ∈ nodes, (s.buffers x).dev = 1#32 → Settled volume (s.buffers x))
    (unused : new ∉ nodes)
    (absent : ∀ b ∈ nodes, ¬((s.buffers b).dev = 1#32 ∧ (s.buffers b).block = block))
    (cache : CacheList s' (nodes ++ [new]))
    (appended : Appended s 1#32 block new memory s') :
    CacheInvariant s' (.got block outer new) volume (nodes ++ [new]) := by
  obtain ⟨quiet, agrees, outermost, inside⟩ := inv.stage
  obtain ⟨buffers, list, count, rest⟩ := appended.rest
  have keys := appended_keys unused appended
  have newDev : (s'.buffers new).dev = 1#32 := by rw [appended.added]
  have newBlock : (s'.buffers new).block = block := by rw [appended.added]
  have oldOrNew : ∀ x ∈ nodes ++ [new], x ∈ nodes ∨ x = new := by
    intro x member
    simpa using member
  constructor
  case cache => exact cache
  case unlocked =>
    rw [rest]
    exact inv.unlocked
  case kinds =>
    intro x member
    rcases oldOrNew x member with isOld | rfl
    · rw [(keys x isOld).1, (keys x isOld).2]
      exact inv.kinds x isOld
    · rw [newBlock]
      exact .inr ⟨newDev, inside⟩
  case distinct => exact inv.appended_distinct unused absent appended
  case current =>
    rintro _ ⟨⟩
    exact ⟨by simp, newDev⟩
  case settled =>
    intro x member devX notNew
    rcases oldOrNew x member with isOld | rfl
    · rw [(keys x isOld).1] at devX
      have before := settled x isOld devX
      obtain ⟨next, same⟩ := appended.kept x fun isNew => unused (isNew ▸ isOld)
      rw [same]
      exact ⟨before.valid, before.clean, before.data⟩
    · exact absurd rfl notNew
  case uncached =>
    intro other none
    apply inv.uncached
    intro x member devX
    rw [← (keys x member).2]
    exact none x (mem_append_left _ member) (by rw [(keys x member).1]; exact devX)
  case stage =>
    have unread : Unread volume (s'.buffers new) := by
      rw [appended.added]
      refine ⟨by simp [Buffer.Has]; decide, by simp [Buffer.Has]; decide, ?_⟩
      exact inv.uncached block fun b member devB blockB => absent b member ⟨devB, blockB⟩
    refine ⟨?_, ?_, outermost, newBlock, .inr unread⟩
    · rw [rest]
      exact quiet
    · rw [rest]
      exact agrees

end Append

/-- `buffer_get`: the buffer it finds is settled, the one it makes is unread. -/
theorem get (inv : CacheInvariant s (.get block outer) volume nodes) (unused : new ∉ nodes)
    (outcome : GetOutcome s nodes 1#32 block new memory b s') :
    Advances ⟨s, .get block outer⟩ volume ⟨s', .got block outer b⟩ := by
  obtain ⟨quiet, agrees, outermost, inside⟩ := inv.stage
  have settled : ∀ x ∈ nodes, (s.buffers x).dev = 1#32 → Settled volume (s.buffers x) :=
    fun x member devX => inv.settled x member devX (by rintro ⟨⟩)
  refine ⟨?_, Nat.lt_succ_self 9, rfl⟩
  cases outcome with
  | hit member hasDev hasBlock => exact ⟨nodes, inv.hit settled member hasDev hasBlock⟩
  | miss absent cache appended =>
    exact ⟨_, inv.miss settled unused absent cache appended⟩

/-- A request does not depend on the queue's links. -/
private theorem requesting_of_q (asks : Requesting s volume caller b) (disk : s'.disk = s.disk)
    {q : Option BufferPtr} (same : s'.buffers b = { s.buffers b with q := q }) :
    Requesting s' volume caller b := by
  unfold Requesting Ide.Agrees at *
  rw [disk, same]
  cases caller with
  | read block outer =>
    obtain ⟨⟨outermost, isBlock, unread⟩, agrees⟩ := asks
    exact ⟨⟨outermost, isBlock, unread.invalid, unread.clean, unread.view⟩, agrees⟩
  | write =>
    obtain ⟨marked, agrees⟩ := asks
    exact ⟨⟨marked.valid, marked.dirty, marked.data, marked.disk⟩, agrees⟩

/-- A buffer that is asked for passes the tests of `ide_rw`. -/
private theorem tests_pass (inv : CacheInvariant s (.rw caller b .tests) volume nodes) :
    ideRw caller b s .tests = ⟨s, .rw caller b .clear⟩ := by
  have requested : ¬(s.buffers b).flags &&& (bValid ||| bDirty) = bValid := by
    rw [only_valid_iff]
    obtain ⟨_, asks, _⟩ := inv.stage
    cases caller with
    | read block outer => exact fun valid => asks.2.2.invalid valid.1
    | write => exact fun valid => valid.2 asks.dirty
  have dev := (inv.current b rfl).2
  simp only [ideRw, if_neg requested, dev, ne_eq, not_true_eq_false, if_false]

/-- One statement of `ide_rw`. -/
theorem rw (inv : CacheInvariant s (.rw caller b pc) volume nodes)
    (handled : pc = .finish → s.pending = []) :
    Advances ⟨s, .rw caller b pc⟩ volume (ideRw caller b s pc) := by
  have stage := inv.stage
  cases pc with
  | tests =>
    rw [inv.tests_pass]
    refine ⟨⟨nodes, inv.of_thread rfl (.inl rfl) stage⟩, Nat.lt_succ_self 7, ?_⟩
    cases caller <;> rfl
  | clear =>
    obtain ⟨quiet, asks⟩ := stage
    have written : Stage (s.modify b fun x => { x with q := none }) volume nodes
        (.rw caller b (.walk .head)) := by
      refine ⟨quiet, requesting_of_q asks rfl (Ide.modify_self ..), rfl, ?_⟩
      rw [Ide.modify_self]
    refine ⟨⟨nodes, inv.of_modify rfl ⟨rfl, rfl, rfl⟩ rfl written⟩, Nat.lt_succ_self 6, ?_⟩
    cases caller <;> rfl
  | walk pp =>
    obtain ⟨quiet, asks, rfl, ends⟩ := stage
    have ended : ideRw caller b s (.walk .head) = ⟨s, .rw caller b (.link .head)⟩ := by
      simp only [ideRw, Ide.queueAt, quiet.1]
    rw [ended]
    refine ⟨⟨nodes, inv.of_thread rfl (.inl rfl) ⟨quiet, asks, rfl, ends⟩⟩,
      Nat.lt_succ_self 5, ?_⟩
    cases caller <;> rfl
  | link pp =>
    obtain ⟨quiet, asks, rfl, ends⟩ := stage
    have linked : Stage { s with idequeue := some b } volume nodes (.rw caller b .start) :=
      ⟨rfl, quiet.2, asks, ends⟩
    refine ⟨⟨nodes, inv.of_current rfl (fun _ _ => rfl) ⟨rfl, rfl, rfl⟩ ⟨rfl, rfl, rfl⟩
      (.inl rfl) linked⟩, Nat.lt_succ_self 4, ?_⟩
    cases caller <;> rfl
  | start =>
    obtain ⟨queued, empty, asks, ends⟩ := stage
    have started : ideRw caller b s .start = ⟨ideOp b s, .rw caller b .finish⟩ := by
      simp only [ideRw, if_pos queued]
    have issued : (ideOp b s).pending = [(s.buffers b).command] := by
      simp only [ideOp, empty, nil_append]
    have stage : Stage (ideOp b s) volume nodes (.rw caller b .finish) :=
      .inl ⟨queued, issued, asks, ends⟩
    rw [started]
    refine ⟨⟨nodes, inv.of_current rfl (fun _ _ => rfl) ⟨rfl, rfl, rfl⟩ ⟨rfl, rfl, rfl⟩
      (.inl rfl) stage⟩, ?_, ?_⟩
    · simp only [Machine.rank, issued, length_singleton]
      decide
    · cases caller <;> rfl
  | finish =>
    have none := handled rfl
    rcases stage with ⟨_, issued, _⟩ | ⟨quiet, agrees, settled, served⟩
    · rw [none] at issued
      cases issued
    · have closer : 1 < Machine.rank ⟨s, .rw caller b .finish⟩ := by
        simp only [Machine.rank, none, length_nil]
        decide
      cases caller with
      | read block outer =>
        obtain ⟨outermost, isBlock⟩ := served
        exact ⟨⟨nodes, inv.of_thread rfl (.inl rfl)
          ⟨quiet, agrees, outermost, isBlock, settled⟩⟩, closer, rfl⟩
      | write =>
        refine ⟨⟨nodes, inv.of_thread rfl (.inr ⟨rfl, settled⟩) ⟨quiet, agrees, ?_⟩⟩,
          Nat.lt_of_le_of_lt (Nat.zero_le 1) closer, rfl⟩
        rintro _ _ ⟨⟩

/-- Every statement of a call ends, and brings the call closer to its end. -/
theorem advance (inv : CacheInvariant s thread volume nodes) (unused : new ∉ nodes)
    (ends : memory.next = none) (running : ∀ result, thread ≠ .idle result)
    (handled : thread.finishing → s.pending.isEmpty) :
    ∃ m, Machine.advance new memory ⟨s, thread⟩ = some m ∧ Advances ⟨s, thread⟩ volume m := by
  cases thread with
  | idle result => exact absurd rfl (running result)
  | get block outer =>
    obtain ⟨b, s', got, outcome⟩ := bufferGet_outcome inv.cache 1#32 block unused ends
    refine ⟨⟨s', .got block outer b⟩, ?_, inv.get unused outcome⟩
    simp only [Machine.advance, got]
  | got block outer b =>
    obtain ⟨quiet, agrees, outermost, isBlock, content⟩ := inv.stage
    simp only [Machine.advance]
    split
    · next valid =>
        have settled : Settled volume (s.buffers b) :=
          content.resolve_right fun unread => unread.invalid valid
        refine ⟨_, rfl, ⟨nodes, inv.of_thread rfl (.inl rfl) ?_⟩, ?_, rfl⟩
        · exact ⟨quiet, agrees, outermost, isBlock, settled⟩
        · show 1 < 9
          decide
    · next invalid =>
        have unread : Unread volume (s.buffers b) :=
          content.resolve_left fun settled => invalid settled.valid
        refine ⟨_, rfl, ⟨nodes, inv.of_thread rfl (.inl rfl) ?_⟩, Nat.lt_succ_self 8, rfl⟩
        exact ⟨quiet, ⟨outermost, isBlock, unread⟩, agrees⟩
  | mark b =>
    obtain ⟨quiet, agrees, settled, disk⟩ := inv.stage
    have marked : Marked volume { s.buffers b with flags := (s.buffers b).flags ||| bDirty } := by
      obtain ⟨valid, dirty⟩ := valid_or_dirty (s.buffers b).flags
      refine ⟨?_, dirty, settled.data, disk⟩
      unfold Buffer.Has
      rw [valid]
      exact settled.valid
    have stage : Stage (s.modify b fun x => { x with flags := x.flags ||| bDirty }) volume nodes
        (.rw .write b .tests) := by
      refine ⟨quiet, ?_⟩
      unfold Requesting
      rw [Ide.modify_self]
      exact ⟨marked, agrees⟩
    exact ⟨_, rfl, ⟨nodes, inv.of_modify rfl ⟨rfl, rfl, rfl⟩ rfl stage⟩,
      Nat.lt_succ_self 8, rfl⟩
  | rw caller b pc =>
    refine ⟨_, rfl, inv.rw ?_⟩
    rintro rfl
    simpa using handled rfl
  | retry block outer b i =>
    obtain ⟨quiet, agrees, outermost, isBlock, settled⟩ := inv.stage
    have done : ¬(i = -1 ∧ ¬(s.buffers b).Has bValid) := fun again => again.2 settled.valid
    simp only [Machine.advance, if_neg done]
    refine ⟨_, rfl, ⟨nodes, inv.of_thread rfl (.inr ⟨rfl, settled⟩) ?_⟩, Nat.one_pos, rfl⟩
    refine ⟨quiet, agrees, ?_⟩
    rintro _ _ ⟨⟩
    rw [outermost]
    exact ⟨(inv.current b rfl).1, (inv.current b rfl).2, isBlock⟩

/-- The command is in flight only while `ide_rw` waits for it. -/
theorem pending_cases (inv : CacheInvariant s thread volume nodes) : s.pending = [] ∨
    ∃ caller b, thread = .rw caller b .finish ∧ s.idequeue = some b ∧
      s.pending = [(s.buffers b).command] ∧ Requesting s volume caller b ∧
      (s.buffers b).q = none := by
  have stage := inv.stage
  cases thread with
  | idle result => exact .inl stage.1.2
  | get block outer => exact .inl stage.1.2
  | got block outer b => exact .inl stage.1.2
  | mark b => exact .inl stage.1.2
  | retry block outer b i => exact .inl stage.1.2
  | rw caller b pc =>
    cases pc with
    | tests => exact .inl stage.1.2
    | clear => exact .inl stage.1.2
    | walk pp => exact .inl stage.1.2
    | link pp => exact .inl stage.1.2
    | start => exact .inl stage.2.1
    | finish =>
      rcases stage with ⟨queued, issued, asks, ends⟩ | ⟨quiet, _⟩
      · exact .inr ⟨caller, b, rfl, queued, issued, asks, ends⟩
      · exact .inl quiet.2

/-- What the drive and the handler make of a request. -/
private theorem request_served (inside : (s.buffers b).block.toNat < blockLimit) (garbage : Data)
    (asks : Requesting s volume caller b) :
    (∀ block : U32, block.toNat < blockLimit →
      (s.buffers b).command.output s.disk false block.toNat = volume.disk block) ∧
    Settled volume ((s.buffers b).served false ((s.buffers b).command.input s.disk garbage)) ∧
    caller.Served ((s.buffers b).served false ((s.buffers b).command.input s.disk garbage)) := by
  obtain ⟨valid, clean⟩ := valid_served (s.buffers b).flags
  cases caller with
  | read block outer =>
    obtain ⟨⟨outermost, isBlock, unread⟩, agrees⟩ := asks
    have command : (s.buffers b).command = .read
        (lba ((s.buffers b).block * BitVec.ofNat 32 sectorPerBlock)) := by
      simp only [Buffer.command, if_neg unread.clean]
    have delivered : s.disk (s.buffers b).block.toNat = volume.view (s.buffers b).block := by
      rw [agrees _ inside (by rintro ⟨⟩), unread.view]
    rw [command]
    refine ⟨fun other below => agrees other below (by rintro ⟨⟩), ⟨valid, ?_, ?_⟩,
      outermost, isBlock⟩
    · simpa [Buffer.Has, Buffer.served] using clean
    · simp only [Buffer.served, Command.input, lba_block inside, unread.clean,
        not_false_eq_true, and_self, if_true, delivered]
  | write =>
    obtain ⟨marked, agrees⟩ := asks
    have command : (s.buffers b).command = .write
        (lba ((s.buffers b).block * BitVec.ofNat 32 sectorPerBlock)) (s.buffers b).data := by
      simp only [Buffer.command, if_pos marked.dirty]
    rw [command]
    refine ⟨?_, ⟨valid, ?_, ?_⟩, trivial⟩
    · intro other below
      simp only [Command.output, lba_block inside, Bool.false_eq_true, if_false]
      by_cases isBlock : other = (s.buffers b).block
      · rw [isBlock, Function.update_self, marked.disk]
      · rw [Function.update_of_ne fun same => isBlock (BitVec.eq_of_toNat_eq same)]
        exact agrees other below fun same => isBlock (Option.some.inj same).symm
    · simpa [Buffer.Has, Buffer.served] using clean
    · simp only [Buffer.served, marked.dirty, not_true_eq_false, false_and, if_false,
        marked.data]

/-- A completion interrupt serves the request in flight. -/
theorem interrupt (inv : CacheInvariant s thread volume nodes) {garbage : Data}
    (taken : interrupt false garbage s = some s') :
    Advances ⟨s, thread⟩ volume ⟨s', thread⟩ := by
  obtain ⟨done, rest, isPending, _, outcome⟩ := interrupt_outcome taken
  rcases inv.pending_cases with empty | ⟨caller, b, rfl, queued, issued, asks, ends⟩
  · rw [empty] at isPending
    cases isPending
  · obtain ⟨rfl, rfl⟩ : done = (s.buffers b).command ∧ rest = [] := by
      simpa using isPending.symm.trans issued
    obtain ⟨member, dev⟩ := inv.current b rfl
    have inside : (s.buffers b).block.toNat < blockLimit := by
      rcases inv.kinds b member with placeholder | ⟨_, below⟩
      · rw [dev] at placeholder
        cases placeholder
      · exact below
    obtain ⟨disk, settled, served⟩ := request_served inside garbage asks
    cases outcome with
    | spurious empty =>
      rw [queued] at empty
      cases empty
    | next head link =>
      obtain rfl : b = _ := Option.some.inj (queued.symm.trans head)
      rw [ends] at link
      cases link
    | last head _ =>
      obtain rfl : b = _ := Option.some.inj (queued.symm.trans head)
      refine ⟨⟨nodes, inv.of_current rfl (fun x other => Ide.modify_other _ _ other) ?_
        ⟨rfl, rfl, rfl⟩ (.inl rfl) (.inr ⟨⟨rfl, rfl⟩, ?_, ?_, ?_⟩)⟩, ?_, rfl⟩
      · rw [Ide.modify_self]
        exact ⟨rfl, rfl, rfl⟩
      · exact fun block below _ => disk block below
      · rw [Ide.modify_self]
        exact settled
      · rw [Ide.modify_self]
        exact served
      · simp only [Machine.rank, issued, Ide.modify_pending, length_nil, length_singleton]
        decide

/-- The call of `buffer_read`. -/
theorem read (inv : CacheInvariant s (.idle result) volume nodes)
    (inside : block.toNat < blockLimit) :
    CacheInvariant s (.get block none) volume nodes := by
  obtain ⟨quiet, agrees, _⟩ := inv.stage
  exact inv.of_fields (fun _ => ⟨rfl, rfl, rfl⟩) ⟨rfl, rfl, rfl⟩ (by rintro _ ⟨⟩)
    (fun x member devX _ => inv.settled x member devX (by rintro ⟨⟩)) inv.uncached
    ⟨quiet, agrees, rfl, inside⟩

/-- The call of `buffer_write`: on the plain disk it is done at once. -/
theorem write (inv : CacheInvariant s (.idle result) volume nodes) (member : b ∈ nodes)
    (dev : (s.buffers b).dev = 1#32) :
    CacheInvariant s (.mark b) (volume.write (s.buffers b).block (s.buffers b).data) nodes := by
  obtain ⟨quiet, agrees, _⟩ := inv.stage
  have settled : ∀ x ∈ nodes, (s.buffers x).dev = 1#32 →
      Settled (volume.write (s.buffers b).block (s.buffers b).data) (s.buffers x) := by
    intro x memberX devX
    have before := inv.settled x memberX devX (by rintro ⟨⟩)
    exact ⟨before.valid, before.clean, before.data⟩
  refine inv.of_fields (fun _ => ⟨rfl, rfl, rfl⟩) ⟨rfl, rfl, rfl⟩ ?_
    (fun x memberX devX _ => settled x memberX devX) (fun other absent => ?_)
    ⟨quiet, fun other below notExempt => ?_, settled b member dev, Buffered.write_disk_self⟩
  · rintro _ ⟨⟩
    exact ⟨member, dev⟩
  · rw [Buffered.write_disk_other (absent b member dev).symm, Buffered.write_view]
    exact inv.uncached other absent
  · rw [Buffered.write_disk_other fun same => notExempt (congrArg some same.symm)]
    exact agrees other below (by rintro ⟨⟩)

/-- A store through the buffer of a block: no other buffer is for that block. -/
theorem store (inv : CacheInvariant s (.idle result) volume nodes) (member : b ∈ nodes)
    (dev : (s.buffers b).dev = 1#32) (data : Data) :
    CacheInvariant (s.modify b fun x => { x with data := data }) (.idle none)
      (volume.store (s.buffers b).block data) nodes := by
  obtain ⟨quiet, agrees, _⟩ := inv.stage
  refine inv.of_fields ?_ ⟨rfl, rfl, rfl⟩ (by rintro _ ⟨⟩) (fun x memberX devX _ => ?_)
    (fun other absent => ?_) ⟨quiet, agrees, by rintro _ _ ⟨⟩⟩
  · exact fun x => ⟨s.modify_field b Buffer.next rfl x, s.modify_field b Buffer.dev rfl x,
      s.modify_field b Buffer.block rfl x⟩
  · have before := inv.settled x memberX devX (by rintro ⟨⟩)
    by_cases isB : x = b
    · subst isB
      rw [Ide.modify_self]
      exact ⟨before.valid, before.clean, Buffered.store_view_self.symm⟩
    · have apart : (s.buffers x).block ≠ (s.buffers b).block :=
        fun same => isB (inv.distinct x memberX b member devX dev same)
      rw [s.modify_other _ isB]
      refine ⟨before.valid, before.clean, ?_⟩
      rw [Buffered.store_view_other apart]
      exact before.data
  · rw [Buffered.store_view_other (absent b member dev).symm, Buffered.store_disk]
    exact inv.uncached other absent

/-- The invariant holds after `buffer_init`: there is no buffer for any block. -/
theorem start {run : IdeRun Data} (fresh : run.Fresh) :
    ∃ nodes, CacheInvariant run.ide run.machine.thread run.volume nodes := by
  obtain ⟨list, s, empty, idle, unlocked, rfl⟩ := fresh
  obtain ⟨cache, devs, buffers, globals⟩ := cacheList_bufferInit list s
  have placeholder : ∀ b ∈ List.range' list maxOpBlocks,
      ((bufferInit list s).buffers b).dev ≠ 1#32 := by
    intro b member
    rw [devs b member]
    decide
  refine ⟨_, cache, ?_, fun b member => .inl (devs b member), ?_, ?_, ?_, ?_, ?_⟩
  · show (bufferInit list s).idelock = false
    rw [globals, unlocked]
  · exact fun b member _ _ devB => absurd devB (placeholder b member)
  · rintro _ ⟨⟩
  · exact fun b member devB => absurd devB (placeholder b member)
  · exact fun _ _ => rfl
  · refine ⟨⟨?_, ?_⟩, ?_, ?_⟩
    · show (bufferInit list s).idequeue = none
      rw [globals, empty]
    · show (bufferInit list s).pending = []
      rw [globals, idle]
    · intro block _ _
      rw [globals]
    · rintro _ _ ⟨⟩

end CacheInvariant

/-! ### Runs under the synchronous schedule -/

/-- The runs in which every command is handled before `ide_rw` returns. -/
abbrev syncSystem (Data : Type) (limit : Nat) : System (IdeRun Data) (IdeEvent Data) :=
  (ideSystem Data).restrict (SyncGuard limit)

/-- The invariant of a run. -/
def IdeRun.InSync (run : IdeRun Data) : Prop :=
  ∃ nodes, CacheInvariant run.ide run.machine.thread run.volume nodes

namespace IdeRun.InSync

variable {run after : IdeRun Data} {event : IdeEvent Data}

/-- Once a call runs, only its own statements and interrupts can come, and each
brings it closer to its end. -/
theorem running (inSync : run.InSync) (busy : ∀ result, run.machine.thread ≠ .idle result)
    (guarded : SyncGuard blockLimit run event) (legal : event.Legal run.ide)
    (taken : run.next event = some after) : after.InSync ∧
      after.machine.rank < run.machine.rank ∧
      after.machine.thread.reading = run.machine.thread.reading ∧
      after.volume = run.volume := by
  obtain ⟨nodes, inv⟩ := inSync
  obtain ⟨moved, _, volume⟩ := next_eq_some taken
  suffices advanced : Advances run.machine run.volume after.machine ∧
      after.volume = run.volume by
    obtain ⟨⟨⟨nodes', inv'⟩, closer, reading⟩, same⟩ := advanced
    exact ⟨⟨nodes', same ▸ inv'⟩, closer, reading, same⟩
  cases event with
  | read block =>
    simp only [Machine.next] at moved
    cases moved
  | write b =>
    simp only [Machine.next] at moved
    cases moved
  | store b data =>
    simp only [Machine.next] at moved
    cases moved
  | advance new memory =>
    have unused : new ∉ nodes := fun member => legal.1 ((inv.cache.cached_iff new).mpr member)
    obtain ⟨m, advanced, closer⟩ := inv.advance unused legal.2 busy guarded
    obtain rfl : m = after.machine := Option.some.inj (advanced.symm.trans moved)
    exact ⟨closer, volume⟩
  | interrupt error garbage =>
    obtain rfl : error = false := guarded
    simp only [Machine.next] at moved
    split at moved
    · next s' handled =>
        obtain moved := Option.some.inj moved
        rw [← moved]
        exact ⟨inv.interrupt handled, volume⟩
    · cases moved

/-- Between calls only a new call or a store can come. -/
theorem idle (inSync : run.InSync) (isIdle : run.machine.thread = .idle result)
    (guarded : SyncGuard blockLimit run event) (legal : event.Legal run.ide)
    (taken : run.next event = some after) : after.InSync := by
  obtain ⟨⟨s, thread⟩, queued, volume⟩ := run
  obtain ⟨m, queued', volume'⟩ := after
  obtain ⟨nodes, inv⟩ := inSync
  obtain ⟨moved, _, isVolume⟩ := next_eq_some taken
  subst isIdle isVolume
  cases event with
  | read block =>
    cases moved
    exact ⟨nodes, inv.read guarded⟩
  | write b =>
    cases moved
    exact ⟨nodes, inv.write ((inv.cache.cached_iff b).mp legal.1) legal.2⟩
  | store b data =>
    cases moved
    exact ⟨nodes, inv.store ((inv.cache.cached_iff b).mp legal.1) legal.2 data⟩
  | advance new memory => cases moved
  | interrupt error garbage =>
    have noCommand : s.pending = [] := inv.stage.1.2
    simp only [Machine.next, Crunchy.interrupt, noCommand] at moved
    cases moved

theorem step (inSync : run.InSync) (guarded : SyncGuard blockLimit run event)
    (legal : event.Legal run.ide) (taken : run.next event = some after) : after.InSync := by
  cases isThread : run.machine.thread with
  | idle result => exact inSync.idle isThread guarded legal taken
  | _ => exact (inSync.running (by simp [isThread]) guarded legal taken).1

theorem of_reachable (reached : (syncSystem Data blockLimit).Reachable run) : run.InSync :=
  reached.invariant IdeRun.InSync (fun _ fresh => CacheInvariant.start fresh)
    fun _ _ _ inSync ⟨guarded, legal, taken⟩ => inSync.step guarded legal taken

/-- A running call can always go on. -/
theorem progress (inSync : run.InSync) (busy : ∀ result, run.machine.thread ≠ .idle result) :
    ∃ event after, (syncSystem Data blockLimit).Step run event after := by
  obtain ⟨nodes, inv⟩ := inSync
  rcases inv.pending_cases with empty | ⟨caller, b, isThread, _, issued, _⟩
  · obtain ⟨new, unused⟩ := Infinite.exists_notMem_finset nodes.toFinset
    rw [mem_toFinset] at unused
    have notCached : ¬run.ide.Cached new := fun cached =>
      unused ((inv.cache.cached_iff new).mp cached)
    have handled : run.ide.pending.isEmpty := by rw [empty]; rfl
    have zeroed : (⟨0, 0, 0, none, none, run.volume.view 0⟩ : Buffer Data).next = none := rfl
    obtain ⟨m, advanced, _⟩ := inv.advance unused zeroed busy fun _ => handled
    exact ⟨.advance new _, _, fun _ => handled, ⟨notCached, zeroed⟩, next_of_machine advanced⟩
  · obtain ⟨s', handled⟩ := interrupt_ends false (run.volume.view 0) issued inv.unlocked
    have moved : run.machine.next (.interrupt false (run.volume.view 0)) =
        some ⟨s', run.machine.thread⟩ := by
      simp only [Machine.next, handled]
    exact ⟨.interrupt false _, _, rfl, trivial, next_of_machine moved⟩

/-- A running call returns, and nothing changes for the callers until it does. -/
theorem comes_back (inSync : run.InSync) : (syncSystem Data blockLimit).Eventually
    (fun after => (∃ result, after.machine.thread = .idle result ∧
      result.map Prod.fst = run.machine.thread.reading) ∧ after.volume = run.volume) run := by
  apply System.Eventually.of_measure
    (fun after => after.InSync ∧ after.machine.thread.reading = run.machine.thread.reading ∧
      after.volume = run.volume)
    (fun after => after.machine.rank)
  · rintro state ⟨stateInSync, reading, volume⟩ notThere
    apply stateInSync.progress
    intro result isIdle
    rw [isIdle] at reading
    exact notThere ⟨⟨result, isIdle, reading⟩, volume⟩
  · rintro before event after ⟨beforeInSync, reading, volume⟩ notThere ⟨guarded, legal, taken⟩
    have busy : ∀ result, before.machine.thread ≠ .idle result := by
      intro result isIdle
      rw [isIdle] at reading
      exact notThere ⟨⟨result, isIdle, reading⟩, volume⟩
    obtain ⟨kept, closer, sameReading, sameVolume⟩ :=
      beforeInSync.running busy guarded legal taken
    exact ⟨⟨kept, sameReading.trans reading, sameVolume.trans volume⟩, closer⟩
  · exact ⟨inSync, rfl, rfl⟩

/-- A running call returns, and `buffer_read` returns with the block it was for. -/
theorem returns (inSync : run.InSync) : (syncSystem Data blockLimit).Eventually
    (fun after => ∃ result, after.machine.thread = .idle result ∧
      result.map Prod.fst = run.machine.thread.reading) run :=
  inSync.comes_back.mono fun _ there => there.1

end IdeRun.InSync

/-- What `buffer_read` has returned, and the disk at that time. -/
theorem IdeRun.InSync.returned {run : IdeRun Data} {block : U32} {b : BufferPtr}
    (inSync : run.InSync) (isIdle : run.machine.thread = .idle (some (block, b))) :
    (run.ide.buffers b).block = block ∧ Settled run.volume (run.ide.buffers b) ∧
      run.ide.disk block.toNat = run.volume.disk block := by
  obtain ⟨nodes, inv⟩ := inSync
  have stage := inv.stage
  rw [isIdle] at stage
  obtain ⟨_, agrees, result⟩ := stage
  obtain ⟨member, dev, isBlock⟩ := result block b rfl
  refine ⟨isBlock, inv.settled b member dev (by rw [isIdle]; rintro ⟨⟩), ?_⟩
  rcases inv.kinds b member with placeholder | ⟨_, inside⟩
  · rw [dev] at placeholder
    cases placeholder
  · exact agrees block (isBlock ▸ inside) (by rintro ⟨⟩)

/-- The cache as a plain disk with buffers over it. -/
structure CacheRefines (run : IdeRun Data) : Prop where
  /-- The cache has at most one buffer for a block of the drive. -/
  onePerBlock : ∀ b x, run.ide.Cached b → run.ide.Cached x →
    (run.ide.buffers b).dev ≠ 0xFFFFFFFF#32 →
    (run.ide.buffers b).dev = (run.ide.buffers x).dev →
    (run.ide.buffers b).block = (run.ide.buffers x).block → b = x
  /-- The running call returns, if it is a `buffer_read` with the block it is for. -/
  returns : (syncSystem Data blockLimit).Eventually
    (fun after => ∃ result, after.machine.thread = .idle result ∧
      result.map Prod.fst = run.machine.thread.reading) run
  /-- What `buffer_read` has returned is what a reader of the block should see. -/
  returned : ∀ block b, run.machine.thread = .idle (some (block, b)) →
    (run.ide.buffers b).Has bValid ∧ ¬(run.ide.buffers b).Has bDirty ∧
      (run.ide.buffers b).data = run.volume.view block
  /-- Between calls the disk is what the stores and writes so far make of it. -/
  disk : ∀ result, run.machine.thread = .idle result → ∀ block : U32,
    block.toNat < blockLimit → run.ide.disk block.toNat = run.volume.disk block
  /-- Between calls the queue is empty. -/
  queueEmpty : ∀ result, run.machine.thread = .idle result → run.ide.idequeue = none

/-- Under the synchronous schedule, and for blocks that the drive can be asked for,
the buffer cache refines a plain disk. -/
theorem cache_refines_volume {run : IdeRun Data}
    (reached : (syncSystem Data blockLimit).Reachable run) : CacheRefines run := by
  have inSync := IdeRun.InSync.of_reachable reached
  have ⟨nodes, inv⟩ := inSync
  constructor
  · intro b x cachedB cachedX notPlaceholder sameDev sameBlock
    rw [inv.cache.cached_iff] at cachedB cachedX
    rcases inv.kinds b cachedB with placeholder | ⟨devB, _⟩
    · exact absurd placeholder notPlaceholder
    · exact inv.distinct b cachedB x cachedX devB (sameDev ▸ devB) sameBlock
  · exact inSync.returns
  · intro block b isIdle
    obtain ⟨isBlock, settled, _⟩ := inSync.returned isIdle
    exact ⟨settled.valid, settled.clean, isBlock ▸ settled.data⟩
  · intro result isIdle block below
    have stage := inv.stage
    rw [isIdle] at stage
    exact stage.2.1 block below (by rintro ⟨⟩)
  · intro result isIdle
    have stage := inv.stage
    rw [isIdle] at stage
    exact stage.1.1

/-! ### Readers only -/

/-- Nothing but `buffer_read` is called. -/
def IdeEvent.ReadsOnly : IdeEvent Data → Prop
  | .write _ => False
  | .store _ _ => False
  | .read _ => True
  | .advance _ _ => True
  | .interrupt _ _ => True

instance : (event : IdeEvent Data) → Decidable event.ReadsOnly
  | .write _ => .isFalse id
  | .store _ _ => .isFalse id
  | .read _ => .isTrue trivial
  | .advance _ _ => .isTrue trivial
  | .interrupt _ _ => .isTrue trivial

/-- Every interleaving of calls of `buffer_read` with completion interrupts. -/
abbrev readSystem (Data : Type) : System (IdeRun Data) (IdeEvent Data) :=
  (ideSystem Data).restrict fun _ event => event.ReadsOnly

/-- `buffer_read(1, block)` has just returned a valid buffer with the block. -/
def IdeRun.Delivers (run : IdeRun Data) : Prop :=
  ∀ block b, run.machine.thread = .idle (some (block, b)) →
    (run.ide.buffers b).Has bValid ∧ (run.ide.buffers b).data = run.ide.disk block.toNat

/-- Without stores and writes readers see what is on the disk. -/
private theorem view_eq_disk {run : IdeRun Data}
    (reached : ((readSystem Data).restrict (SyncGuard blockLimit)).Reachable run) :
    run.volume.view = run.volume.disk ∧ (syncSystem Data blockLimit).Reachable run := by
  induction reached with
  | start fresh =>
    refine ⟨?_, .start fresh⟩
    obtain ⟨_, _, _, _, _, rfl⟩ := fresh
    rfl
  | @step before after event _ taken ih =>
    obtain ⟨guarded, readsOnly, legal, next⟩ := taken
    refine ⟨?_, .step ih.2 ⟨guarded, legal, next⟩⟩
    have same : after.volume = before.volume := by
      rw [(IdeRun.next_eq_some next).2.2]
      cases event with
      | write b => exact readsOnly.elim
      | store b data => exact readsOnly.elim
      | _ => rfl
    rw [same]
    exact ih.1

/-- `buffer_read` delivers the block in every run in which the drive reports no
error, `ide_rw` returns only after the completion of its command was handled, and
the block number fits the drive's sector numbers. -/
theorem read_delivers_block {run : IdeRun Data}
    (reached : ((readSystem Data).restrict (SyncGuard blockLimit)).Reachable run) :
    run.Delivers := by
  obtain ⟨sameView, sync⟩ := view_eq_disk reached
  intro block b isIdle
  obtain ⟨isBlock, settled, disk⟩ := (IdeRun.InSync.of_reachable sync).returned isIdle
  refine ⟨settled.valid, ?_⟩
  rw [settled.data, isBlock, sameView, disk]

/-! ### Runs on a small disk -/

/-- Call `buffer_read(1, block)`, let the drive deliver the block before `ide_rw`
returns, and run the call to its end. -/
def readThrough (block : U32) (new : BufferPtr) (error : Bool) : List (IdeEvent Nat) :=
  readFor block new 6 ++ .interrupt error 0 :: List.replicate 2 (.advance 99 zeroBuffer)

/-- Call `buffer_write(b)`, let the drive take the block before `ide_rw` returns,
and run the call to its end. -/
def writeThrough (b : BufferPtr) : List (IdeEvent Nat) :=
  .write b :: List.replicate 6 (.advance 99 zeroBuffer) ++
    .interrupt false 0 :: [.advance 99 zeroBuffer]

/-- Block 3 is read, changed and written back. -/
def writtenBack : IdeRun Nat :=
  System.play (IdeRun.checkedNext (SyncGuard blockLimit)) bootedIde
    (readThrough 3#32 16 false ++ .store 16 77 :: writeThrough 16)

theorem written_back_refines : writtenBack.machine.thread = .idle none ∧
    writtenBack.ide.disk 3 = 77 ∧ CacheRefines writtenBack := by
  have reached : (syncSystem Nat blockLimit).Reachable writtenBack :=
    reachable_script (SyncGuard blockLimit) bootedIde_fresh _
  refine ⟨by decide +kernel, by decide +kernel, ?_⟩
  exact cache_refines_volume reached

/-- Block `2 ^ 27` is read, changed and written back. -/
def writtenFarOut : IdeRun Nat :=
  System.play (IdeRun.checkedNext (SyncGuard (2 ^ 32))) bootedIde
    (readThrough 0x8000000#32 16 false ++ .store 16 77 :: writeThrough 16)

/-- The buffers that `buffer_init` makes all have the same device and can have the
same block, and a write of block `2 ^ 27` goes to block 0. -/
theorem cache_not_plain_disk :
    ((syncSystem Nat (2 ^ 32)).Reachable bootedIde ∧ bootedIde.ide.Cached 0 ∧
      bootedIde.ide.Cached 1 ∧ (bootedIde.ide.buffers 0).dev = (bootedIde.ide.buffers 1).dev ∧
      (bootedIde.ide.buffers 0).block = (bootedIde.ide.buffers 1).block) ∧
    (syncSystem Nat (2 ^ 32)).Reachable writtenFarOut ∧
      writtenFarOut.machine.thread = .idle none ∧ writtenFarOut.volume.disk 0#32 = 1 ∧
      writtenFarOut.ide.disk 0 = 77 := by
  refine ⟨⟨.start bootedIde_fresh, ?_, ?_, by decide +kernel, by decide +kernel⟩, ?_,
    by decide +kernel, by decide +kernel, by decide +kernel⟩
  · exact ⟨bootedIde.ide.cacheNodes, by decide +kernel, by decide +kernel⟩
  · exact ⟨bootedIde.ide.cacheNodes, by decide +kernel, by decide +kernel⟩
  · exact reachable_script (SyncGuard (2 ^ 32)) bootedIde_fresh _

/-- Block 3 is read and delivered before `ide_rw` returns. -/
def deliveredInTime : IdeRun Nat :=
  System.play (IdeRun.checkedNext fun run event => event.ReadsOnly ∧ SyncGuard blockLimit run event)
    bootedIde (readThrough 3#32 16 false)

theorem delivered_in_time : deliveredInTime.machine.thread = .idle (some (3#32, 16)) ∧
    deliveredInTime.Delivers := by
  have reached : ((readSystem Nat).restrict (SyncGuard blockLimit)).Reachable deliveredInTime :=
    (reachable_script _ bootedIde_fresh _).restrict_restrict
  refine ⟨by decide +kernel, ?_⟩
  exact read_delivers_block reached

/-- `buffer_read` runs to its end before the drive has delivered block 3. -/
def returnedEarly : IdeRun Nat :=
  System.play (IdeRun.checkedNext fun _ event => event.ReadsOnly) bootedIde (readFor 3#32 16 8)

/-- The drive reports an error for block 3. -/
def driveError : IdeRun Nat :=
  System.play (IdeRun.checkedNext fun _ event => event.ReadsOnly) bootedIde
    (readThrough 3#32 16 true)

/-- A buffer that is not valid is returned when the call is faster than the drive,
and a valid one without the block when the drive reports an error. -/
theorem read_without_block :
    ((readSystem Nat).Reachable returnedEarly ∧
      returnedEarly.machine.thread = .idle (some (3#32, 16)) ∧
      ¬(returnedEarly.ide.buffers 16).Has bValid) ∧
    (readSystem Nat).Reachable driveError ∧
      driveError.machine.thread = .idle (some (3#32, 16)) ∧
      (driveError.ide.buffers 16).Has bValid ∧
      (driveError.ide.buffers 16).data ≠ driveError.ide.disk 3 := by
  refine ⟨⟨?_, by decide +kernel, by decide +kernel⟩, ?_, by decide +kernel, by decide +kernel,
    by decide +kernel⟩
  · exact reachable_script _ bootedIde_fresh _
  · exact reachable_script _ bootedIde_fresh _

end Crunchy
