/-
Module: Crunchy.Proofs.IdeRuns
Purpose: The runs of the disk driver under calls and completion interrupts, and
  what one call of `buffer_get` and one interrupt do to the two linked lists.
Trusted boundary: none
Main exports: Volume, IdeRun, ideSystem, CacheList, bufferGet_outcome, interrupt_outcome
-/
import Crunchy.Drivers.Ide
import Crunchy.Lib.Buffered
import Crunchy.Lib.Linked
import Crunchy.Lib.Transition

namespace Crunchy

open Lib List Function

variable {Data : Type}

variable {error : Bool} {memory : Buffer Data} {f : Buffer Data → Buffer Data} {b new : BufferPtr}
  {done : Command Data} {garbage : Data} {s s' : Ide Data} {event : IdeEvent Data} {bp : Link}
  {nodes : List BufferPtr} {fuel : Nat} {dev : U32}

/-! ### Runs -/

/-- A plain disk with buffers over it, by block number. -/
abbrev Volume (Data : Type) := Buffered U32 Data

/-- A run: the machine, the buffers that were queued and that `ide_handler` has
not popped, in the order in which they were queued, and the plain disk that the
calls so far would have left. -/
structure IdeRun (Data : Type) where
  machine : Machine Data
  queued : List BufferPtr
  volume : Volume Data

/-- The driver's state in a run. -/
abbrev IdeRun.ide (run : IdeRun Data) : Ide Data := run.machine.ide

/-- A buffer is queued by the assignment that links it and popped by the
interrupt that finds it at the head. -/
def IdeRun.queuedAfter (run : IdeRun Data) : IdeEvent Data → List BufferPtr
  | .advance _ _ =>
    match run.machine.thread with
    | .rw _ b (.link _) => run.queued ++ [b]
    | _ => run.queued
  | .interrupt _ _ =>
    match run.ide.idequeue with
    | some b => run.queued.erase b
    | none => run.queued
  | _ => run.queued

/-- The plain disk follows the calls, not the driver's steps. -/
def IdeRun.volumeAfter (run : IdeRun Data) : IdeEvent Data → Volume Data
  | .store b data => run.volume.store (run.ide.buffers b).block data
  | .write b => run.volume.write (run.ide.buffers b).block (run.ide.buffers b).data
  | _ => run.volume

/-- The run after an event, if the event can happen. -/
def IdeRun.next (run : IdeRun Data) (event : IdeEvent Data) : Option (IdeRun Data) :=
  match run.machine.next event with
  | some m => some ⟨m, run.queuedAfter event, run.volumeAfter event⟩
  | none => none

/-- A buffer of the cache list. -/
def Ide.Cached (s : Ide Data) (b : BufferPtr) : Prop :=
  ∃ nodes, Linked (fun x => (s.buffers x).next) s.cacheList nodes ∧ b ∈ nodes

/-- What the callers and `malloc` keep to: stores and `buffer_write` are given a
buffer that `buffer_read(1, _)` returned, and new memory is not in use and comes
with a `NULL` next pointer. -/
def IdeEvent.Legal (s : Ide Data) : IdeEvent Data → Prop
  | .write b => s.Cached b ∧ (s.buffers b).dev = 1#32
  | .store b _ => s.Cached b ∧ (s.buffers b).dev = 1#32
  | .advance new memory => ¬s.Cached new ∧ memory.next = none
  | .read _ => True
  | .interrupt _ _ => True

/-- The driver after `buffer_init`, with an empty queue and an idle drive. -/
def IdeRun.Fresh (run : IdeRun Data) : Prop :=
  ∃ list s, s.idequeue = none ∧ s.pending = [] ∧ s.idelock = false ∧
    run = ⟨⟨bufferInit list s, .idle none⟩, [], ⟨fun block => s.disk block.toNat,
      fun block => s.disk block.toNat⟩⟩

/-- Every interleaving of the calls with the completion interrupts. -/
def ideSystem (Data : Type) : System (IdeRun Data) (IdeEvent Data) where
  Start := IdeRun.Fresh
  Step before event after := event.Legal before.ide ∧ before.next event = some after

theorem IdeRun.next_eq_some {run after : IdeRun Data} (taken : run.next event = some after) :
    run.machine.next event = some after.machine ∧
      after.queued = run.queuedAfter event ∧ after.volume = run.volumeAfter event := by
  unfold next at taken
  split at taken
  · rename_i m eq
    cases taken
    exact ⟨eq, rfl, rfl⟩
  · cases taken

theorem IdeRun.next_of_machine {run : IdeRun Data} {m : Machine Data}
    (moved : run.machine.next event = some m) :
    run.next event = some ⟨m, run.queuedAfter event, run.volumeAfter event⟩ := by
  unfold next
  rw [moved]

/-! ### Writes to one buffer -/

@[simp] theorem Ide.modify_self (s : Ide Data) (b : BufferPtr) (f : Buffer Data → Buffer Data) :
    (s.modify b f).buffers b = f (s.buffers b) :=
  update_self ..

theorem Ide.modify_other (s : Ide Data) {x : BufferPtr} (f : Buffer Data → Buffer Data)
    (other : x ≠ b) : (s.modify b f).buffers x = s.buffers x :=
  update_of_ne other ..

theorem Ide.modify_eq_self (s : Ide Data) (b : BufferPtr) (same : f (s.buffers b) = s.buffers b) :
    s.modify b f = s := by
  rw [modify, same, update_eq_self]

/-- A field that the write keeps is the same in every buffer. -/
theorem Ide.modify_field {Field : Type} (s : Ide Data) (b : BufferPtr) (field : Buffer Data → Field)
    (keeps : field (f (s.buffers b)) = field (s.buffers b)) (x : BufferPtr) :
    field ((s.modify b f).buffers x) = field (s.buffers x) := by
  by_cases same : x = b
  · rw [same, modify_self, keeps]
  · rw [modify_other s f same]

@[simp] theorem Ide.modify_idequeue (s : Ide Data) (b : BufferPtr)
    (f : Buffer Data → Buffer Data) : (s.modify b f).idequeue = s.idequeue := rfl

@[simp] theorem Ide.modify_cacheList (s : Ide Data) (b : BufferPtr)
    (f : Buffer Data → Buffer Data) : (s.modify b f).cacheList = s.cacheList := rfl

@[simp] theorem Ide.modify_cacheCount (s : Ide Data) (b : BufferPtr)
    (f : Buffer Data → Buffer Data) : (s.modify b f).cacheCount = s.cacheCount := rfl

@[simp] theorem Ide.modify_pending (s : Ide Data) (b : BufferPtr)
    (f : Buffer Data → Buffer Data) : (s.modify b f).pending = s.pending := rfl

@[simp] theorem Ide.modify_disk (s : Ide Data) (b : BufferPtr)
    (f : Buffer Data → Buffer Data) : (s.modify b f).disk = s.disk := rfl

/-! ### The cache list -/

/-- The cache list has these buffers, as many as `cacheCount` says. -/
structure CacheList (s : Ide Data) (nodes : List BufferPtr) : Prop where
  linked : Linked (fun x => (s.buffers x).next) s.cacheList nodes
  count : nodes.length = s.cacheCount

namespace CacheList

variable {s s' : Ide Data} {nodes : List BufferPtr}

theorem cached_iff (cache : CacheList s nodes) (b : BufferPtr) : s.Cached b ↔ b ∈ nodes := by
  constructor
  · rintro ⟨others, linked, member⟩
    rwa [cache.linked.unique linked]
  · exact fun member => ⟨nodes, cache.linked, member⟩

/-- Only the links matter. -/
theorem congr (cache : CacheList s nodes) (list : s'.cacheList = s.cacheList)
    (count : s'.cacheCount = s.cacheCount)
    (same : ∀ b, (s'.buffers b).next = (s.buffers b).next) : CacheList s' nodes := by
  constructor
  · rw [list]
    exact cache.linked.congr fun b _ => same b
  · rw [count]
    exact cache.count

end CacheList

/-- The search visits the list up to the first match. -/
private theorem findBuffer_linked {block : U32} {head : Option BufferPtr}
    (linked : Linked (fun x => (s.buffers x).next) head nodes) (enough : nodes.length ≤ fuel) :
    findBuffer s dev block fuel head = some (nodes.find? fun b =>
      (s.buffers b).dev = dev ∧ (s.buffers b).block = block) := by
  induction nodes generalizing head fuel with
  | nil =>
    rw [Linked.nil_iff.mp linked]
    cases fuel <;> rfl
  | cons b nodes ih =>
    rw [linked.1]
    cases fuel with
    | zero => simp at enough
    | succ fuel =>
      rw [findBuffer, find?_cons]
      split
      · next isMatch => simp [isMatch]
      · next noMatch =>
          simp only [noMatch, decide_false]
          exact ih linked.2 (by simpa using enough)

/-- The link at which a list ends. -/
def lastLink (bp : Link) : List BufferPtr → Link
  | [] => bp
  | b :: rest => lastLink (.node b) rest

private theorem endOfList_linked
    (linked : Linked (fun x => (s.buffers x).next) (s.cacheAt bp) nodes)
    (enough : nodes.length ≤ fuel) : endOfList s fuel bp = some (lastLink bp nodes) := by
  induction nodes generalizing bp fuel with
  | nil =>
    unfold endOfList
    rw [Linked.nil_iff.mp linked]
    rfl
  | cons b nodes ih =>
    cases fuel with
    | zero => simp at enough
    | succ fuel =>
      unfold endOfList
      rw [linked.1]
      have rest : endOfList s fuel (.node b) = some (lastLink (.node b) nodes) :=
        ih linked.2 (by simpa using enough)
      exact rest

private theorem lastLink_mem (nodes : List BufferPtr) (bp : Link) :
    lastLink bp nodes = bp ∧ nodes = [] ∨ ∃ x ∈ nodes, lastLink bp nodes = .node x := by
  induction nodes generalizing bp with
  | nil => exact .inl ⟨rfl, rfl⟩
  | cons first nodes ih =>
    right
    rcases ih (.node first) with ⟨ends, _⟩ | ⟨x, member, ends⟩
    · exact ⟨first, mem_cons_self, ends⟩
    · exact ⟨x, mem_cons_of_mem _ member, ends⟩

/-- Nothing is linked behind the last link. -/
private theorem cacheAt_lastLink
    (linked : Linked (fun x => (s.buffers x).next) (s.cacheAt bp) nodes) :
    s.cacheAt (lastLink bp nodes) = none := by
  induction nodes generalizing bp with
  | nil => exact linked
  | cons b nodes ih =>
    have rest : s.cacheAt (lastLink (.node b) nodes) = none := ih linked.2
    exact rest

/-- The state after `buffer_get` has appended the buffer `new` for the block. -/
structure Appended (s : Ide Data) (dev block : U32) (new : BufferPtr) (memory : Buffer Data)
    (s' : Ide Data) : Prop where
  added : s'.buffers new = { memory with dev := dev, block := block, flags := bBusy }
  kept : ∀ b ≠ new, ∃ next, s'.buffers b = { s.buffers b with next := next }
  rest : ∃ buffers list count, s' =
    { s with buffers := buffers, cacheList := list, cacheCount := count }

/-- The new buffer linked at `bp`, with its fields filled in. -/
def Ide.linkNew (s : Ide Data) (dev block : U32) (new : BufferPtr) (memory : Buffer Data)
    (bp : Link) : Ide Data :=
  { (s.modify new fun _ => memory).setCacheAt (some new) bp with
    cacheCount := s.cacheCount + 1 }.modify new fun x =>
      { x with dev := dev, block := block, flags := bBusy }

/-- Whatever the link of the new buffer was, it stays. -/
private theorem appended_linkNew (s : Ide Data) (dev block : U32) (memory : Buffer Data)
    (notNew : bp ≠ .node new) :
    Appended s dev block new memory (s.linkNew dev block new memory bp) := by
  cases bp with
  | head =>
    refine ⟨?_, fun b other => ⟨(s.buffers b).next, ?_⟩, ?_⟩
    · simp [Ide.linkNew, Ide.setCacheAt]
    · simp [Ide.linkNew, Ide.setCacheAt, Ide.modify, other]
    · exact ⟨_, _, _, rfl⟩
  | node x =>
    have other : new ≠ x := fun same => notNew (same ▸ rfl)
    refine ⟨?_, fun b notAdded => ?_, ?_⟩
    · simp [Ide.linkNew, Ide.setCacheAt, Ide.modify, other]
    · by_cases atX : b = x
      · subst atX
        exact ⟨some new, by simp [Ide.linkNew, Ide.setCacheAt, Ide.modify, notAdded]⟩
      · exact ⟨(s.buffers b).next,
          by simp [Ide.linkNew, Ide.setCacheAt, Ide.modify, notAdded, atX]⟩
    · exact ⟨_, _, _, rfl⟩

/-- Linking a new buffer whose own link is `NULL` where the list ends puts it at the end of
the list. -/
private theorem append_cacheList (dev block : U32) (cache : CacheList s nodes)
    (unused : new ∉ nodes) (ends : memory.next = none) :
    CacheList (s.linkNew dev block new memory (lastLink .head nodes)) (nodes ++ [new]) := by
  have linked := cache.linked
  rcases lastLink_mem nodes .head with ⟨atHead, rfl⟩ | ⟨x, member, atLast⟩
  · refine ⟨?_, by simp [Ide.linkNew, ← cache.count]⟩
    simp [Ide.linkNew, lastLink, Ide.setCacheAt, ends]
  · have nothing : (s.buffers x).next = none := by
      have atEnd : s.cacheAt (lastLink .head nodes) = none := cacheAt_lastLink linked
      rwa [atLast] at atEnd
    have notNew : x ≠ new := by
      rintro rfl
      exact unused member
    rw [atLast]
    refine ⟨?_, by simp [Ide.linkNew, ← cache.count]⟩
    apply linked.append member nothing
    · simp [Ide.linkNew, Ide.setCacheAt, Ide.modify, notNew]
    · simp [Ide.linkNew, Ide.setCacheAt, Ide.modify, notNew.symm, ends]
    · intro other inList notLast
      have otherNotNew : other ≠ new := by
        rintro rfl
        exact unused inList
      simp [Ide.linkNew, Ide.setCacheAt, Ide.modify, notLast, otherNotNew]

/-- What `buffer_get` does: it returns the buffer that the list has for the
block and marks it busy, or appends a new one. -/
inductive GetOutcome (s : Ide Data) (nodes : List BufferPtr) (dev block : U32)
    (new : BufferPtr) (memory : Buffer Data) : BufferPtr → Ide Data → Prop where
  | hit {b : BufferPtr} (member : b ∈ nodes) (hasDev : (s.buffers b).dev = dev)
      (hasBlock : (s.buffers b).block = block) :
      GetOutcome s nodes dev block new memory b
        (s.modify b fun x => { x with flags := x.flags ||| bBusy })
  | miss {s' : Ide Data} (absent : ∀ b ∈ nodes, ¬((s.buffers b).dev = dev ∧
      (s.buffers b).block = block)) (cache : CacheList s' (nodes ++ [new]))
      (appended : Appended s dev block new memory s') :
      GetOutcome s nodes dev block new memory new s'

/-- A flag that is set stays as it is when it is set again. -/
private theorem or_busy {flags : BitVec 8} : flags &&& bBusy ≠ 0#8 → flags ||| bBusy = flags := by
  revert flags
  decide

/-- The buffer that the list has for the block is marked busy. -/
theorem bufferGet_hit (cache : CacheList s nodes) {block : U32}
    (found : nodes.find? (fun b => (s.buffers b).dev = dev ∧ (s.buffers b).block = block) = some b)
    (new : BufferPtr) (memory : Buffer Data) :
    bufferGet dev block new memory s =
      some (b, s.modify b fun x => { x with flags := x.flags ||| bBusy }) := by
  have search : findBuffer s dev block s.cacheCount s.cacheList = _ :=
    findBuffer_linked cache.linked (Nat.le_of_eq cache.count)
  unfold bufferGet
  rw [search, found]
  dsimp only
  split
  · next busy =>
      have unchanged : s.modify b (fun x => { x with flags := x.flags ||| bBusy }) = s := by
        apply Ide.modify_eq_self
        rw [or_busy busy]
      rw [unchanged]
  · rfl

/-- A block without a buffer gets the new one, which is at the end of the list if the link that
it comes with is `NULL`. -/
theorem bufferGet_miss (cache : CacheList s nodes) {block : U32}
    (absent : ∀ b ∈ nodes, ¬((s.buffers b).dev = dev ∧
      (s.buffers b).block = block)) (unused : new ∉ nodes) (memory : Buffer Data) :
    ∃ s', bufferGet dev block new memory s = some (new, s') ∧ Appended s dev block new memory s' ∧
      (memory.next = none → CacheList s' (nodes ++ [new])) := by
  have search : findBuffer s dev block s.cacheCount s.cacheList = _ :=
    findBuffer_linked cache.linked (Nat.le_of_eq cache.count)
  have walk : endOfList s s.cacheCount .head = some (lastLink .head nodes) :=
    endOfList_linked cache.linked (Nat.le_of_eq cache.count)
  have none : nodes.find? (fun b => (s.buffers b).dev = dev ∧ (s.buffers b).block = block) =
      none := by simpa using absent
  have notNew : lastLink .head nodes ≠ .node new := by
    rcases lastLink_mem nodes .head with ⟨atHead, _⟩ | ⟨x, member, atLast⟩
    · rw [atHead]
      exact nofun
    · rw [atLast]
      rintro ⟨⟩
      exact unused member
  unfold bufferGet
  rw [search, none]
  simp only [walk]
  exact ⟨s.linkNew dev block new memory (lastLink .head nodes), rfl,
    appended_linkNew s dev block memory notNew, append_cacheList dev block cache unused⟩

theorem bufferGet_outcome (cache : CacheList s nodes) (dev block : U32) (unused : new ∉ nodes)
    (ends : memory.next = none) : ∃ b s', bufferGet dev block new memory s = some (b, s') ∧
      GetOutcome s nodes dev block new memory b s' := by
  cases found : nodes.find? (fun b => (s.buffers b).dev = dev ∧ (s.buffers b).block = block) with
  | some b =>
    have isMatch := find?_some found
    simp only [decide_eq_true_eq] at isMatch
    exact ⟨b, _, bufferGet_hit cache found new memory,
      .hit (mem_of_find?_eq_some found) isMatch.1 isMatch.2⟩
  | none =>
    have absent : ∀ b ∈ nodes, ¬((s.buffers b).dev = dev ∧ (s.buffers b).block = block) := by
      simpa using found
    obtain ⟨s', made, appended, longer⟩ := bufferGet_miss cache absent unused memory
    exact ⟨new, s', made, .miss absent (longer ends) appended⟩

/-! ### Scripts

A script is played by a machine that checks what `IdeEvent.Legal` asks for. -/

/-- The buffers that the loops over the cache list visit. -/
def Ide.listed (s : Ide Data) : Nat → Option BufferPtr → List BufferPtr
  | 0, _ => []
  | _, none => []
  | fuel + 1, some b => b :: s.listed fuel (s.buffers b).next

/-- The buffers of the cache list, if that many end it. -/
def Ide.cacheNodes (s : Ide Data) : List BufferPtr := s.listed s.cacheCount s.cacheList

def Ide.ListEnds (s : Ide Data) : Prop :=
  Linked (fun x => (s.buffers x).next) s.cacheList s.cacheNodes

/-- The checks of a legal event. -/
def IdeEvent.Checked (s : Ide Data) : IdeEvent Data → Prop
  | .write b => s.ListEnds ∧ b ∈ s.cacheNodes ∧ (s.buffers b).dev = 1#32
  | .store b _ => s.ListEnds ∧ b ∈ s.cacheNodes ∧ (s.buffers b).dev = 1#32
  | .advance new memory => s.ListEnds ∧ new ∉ s.cacheNodes ∧ memory.next = none
  | .read _ => True
  | .interrupt _ _ => True

instance (s : Ide Data) : Decidable s.ListEnds := inferInstanceAs (Decidable (Linked _ _ _))

instance (s : Ide Data) : (event : IdeEvent Data) → Decidable (event.Checked s)
  | .write b => inferInstanceAs (Decidable (s.ListEnds ∧ b ∈ s.cacheNodes ∧ _ = _))
  | .store b _ => inferInstanceAs (Decidable (s.ListEnds ∧ b ∈ s.cacheNodes ∧ _ = _))
  | .advance new memory =>
    inferInstanceAs (Decidable (s.ListEnds ∧ new ∉ s.cacheNodes ∧ memory.next = none))
  | .read _ => .isTrue trivial
  | .interrupt _ _ => .isTrue trivial

theorem IdeEvent.Checked.legal (checked : event.Checked s) :
    event.Legal s := by
  cases event with
  | write b => exact ⟨⟨_, checked.1, checked.2.1⟩, checked.2.2⟩
  | store b data => exact ⟨⟨_, checked.1, checked.2.1⟩, checked.2.2⟩
  | advance new memory =>
    refine ⟨?_, checked.2.2⟩
    rintro ⟨nodes, linked, member⟩
    rw [linked.unique checked.1] at member
    exact checked.2.1 member
  | read block => trivial
  | interrupt error garbage => trivial

/-- The next state of a script under a guard. -/
def IdeRun.checkedNext (guard : IdeRun Data → IdeEvent Data → Prop)
    [∀ run event, Decidable (guard run event)] (run : IdeRun Data) (event : IdeEvent Data) :
    Option (IdeRun Data) :=
  if guard run event ∧ event.Checked run.ide then run.next event else none

theorem reachable_script (guard : IdeRun Data → IdeEvent Data → Prop)
    [∀ run event, Decidable (guard run event)] {run : IdeRun Data} (fresh : run.Fresh)
    (script : List (IdeEvent Data)) : ((ideSystem Data).restrict guard).Reachable
      (System.play (IdeRun.checkedNext guard) run script) := by
  have started : ((ideSystem Data).restrict guard).Reachable run := .start fresh
  apply started.play
  intro before event after taken
  unfold IdeRun.checkedNext at taken
  split at taken
  · next allowed => exact ⟨allowed.1, allowed.2.legal, taken⟩
  · cases taken

/-! ### `buffer_init` -/

/-- The buffers that `buffer_init` makes stand one after the other, each linked to
the next; it writes to no other buffer and to nothing else. -/
private theorem bufferInitLoop_spec (s : Ide Data) (more : Nat) (b : BufferPtr) :
    Linked (fun x => ((bufferInitLoop s more b).buffers x).next) (some b)
        (List.range' b (more + 1)) ∧
      (∀ x ∈ List.range' b (more + 1),
        ((bufferInitLoop s more b).buffers x).dev = 0xFFFFFFFF#32) ∧
      (∀ x < b, (bufferInitLoop s more b).buffers x = s.buffers x) ∧
      ∃ buffers, bufferInitLoop s more b = { s with buffers := buffers } := by
  induction more generalizing s b with
  | zero =>
    refine ⟨by simp [bufferInitLoop], by simp [bufferInitLoop], fun x before => ?_, _, rfl⟩
    exact Ide.modify_other s _ (Nat.ne_of_lt before)
  | succ more ih =>
    obtain ⟨linked, devs, before, buffers, rest⟩ := ih
      (s.modify b fun x => { x with next := some (b + 1), dev := 0xFFFFFFFF#32 }) (b + 1)
    have first := before b (Nat.lt_succ_self b)
    rw [range'_succ, bufferInitLoop]
    refine ⟨⟨rfl, ?_⟩, ?_, ?_, buffers, rest⟩
    · simpa only [first, Ide.modify_self] using linked
    · intro x member
      rcases mem_cons.mp member with rfl | later
      · rw [first, Ide.modify_self]
      · exact devs x later
    · intro x earlier
      rw [before x (Nat.lt_succ_of_lt earlier), Ide.modify_other s _ (Nat.ne_of_lt earlier)]

/-- After `buffer_init` the cache list has sixteen buffers of no device. -/
theorem cacheList_bufferInit (list : BufferPtr) (s : Ide Data) :
    CacheList (bufferInit list s) (List.range' list maxOpBlocks) ∧
      (∀ b ∈ List.range' list maxOpBlocks,
        ((bufferInit list s).buffers b).dev = 0xFFFFFFFF#32) ∧
      ∃ buffers, bufferInit list s = { s with
        buffers := buffers, cacheList := some list, cacheCount := maxOpBlocks } := by
  obtain ⟨linked, devs, _, buffers, rest⟩ := bufferInitLoop_spec
    { s with cacheList := some list, cacheCount := maxOpBlocks } (maxOpBlocks - 1) list
  have globals : bufferInit list s = { s with
      buffers := buffers, cacheList := some list, cacheCount := maxOpBlocks } := rest
  refine ⟨⟨?_, ?_⟩, devs, buffers, globals⟩
  · rw [globals]
    rw [rest] at linked
    exact linked
  · rw [globals, length_range']

/-! ### Completion interrupts -/

/-- The buffer at the head after the handler has served it. -/
def Buffer.served (error : Bool) (input : Data) (b : Buffer Data) : Buffer Data :=
  { b with
    data := if ¬b.Has bDirty ∧ error = false then input else b.data
    flags := (b.flags ||| bValid) &&& ~~~bDirty }

/-- What an interrupt does: it finds an empty queue and keeps `idelock`, or it
serves the head of the queue and starts the drive on the next buffer. -/
inductive InterruptOutcome (error : Bool) (garbage : Data) (s : Ide Data)
    (done : Command Data) (rest : List (Command Data)) : Ide Data → Prop where
  | spurious (empty : s.idequeue = none) : InterruptOutcome error garbage s done rest
      { s with pending := rest, disk := done.output s.disk error, idelock := true }
  | last {b : BufferPtr} (head : s.idequeue = some b) (ends : (s.buffers b).q = none) :
      InterruptOutcome error garbage s done rest
        ({ s with idequeue := none, pending := rest, disk := done.output s.disk error }.modify b
          (Buffer.served error (done.input s.disk garbage)))
  | next {b following : BufferPtr} (head : s.idequeue = some b)
      (link : (s.buffers b).q = some following) :
      InterruptOutcome error garbage s done rest
        (ideOp following ({ s with
          idequeue := some following, pending := rest,
          disk := done.output s.disk error }.modify b
            (Buffer.served error (done.input s.disk garbage))))

/-- The two writes of the handler to the head are one. -/
theorem modify_modify (s : Ide Data) (b : BufferPtr) (f g : Buffer Data → Buffer Data) :
    (s.modify b f).modify b g = s.modify b (g ∘ f) := by
  simp [Ide.modify]

/-- What they are together. -/
theorem served_eq (error : Bool) (input : Data) :
    (fun x : Buffer Data => { x with flags := (x.flags ||| bValid) &&& ~~~bDirty }) ∘
      (fun x => if ¬x.Has bDirty ∧ error = false then { x with data := input } else x) =
      Buffer.served error input := by
  funext x
  simp only [comp_apply, Buffer.served]
  split <;> rfl

theorem interrupt_outcome (taken : interrupt error garbage s = some s') :
    ∃ done rest, s.pending = done :: rest ∧
      s.idelock = false ∧ InterruptOutcome error garbage s done rest s' := by
  unfold interrupt at taken
  split at taken
  · cases taken
  · next done rest issued =>
      refine ⟨done, rest, issued, ?_⟩
      unfold ideHandler at taken
      simp only [modify_modify, served_eq] at taken
      split at taken
      · cases taken
      · next free =>
          refine ⟨by simpa using free, ?_⟩
          split at taken
          · next empty =>
              cases taken
              have outcome : InterruptOutcome error garbage s done rest _ := .spurious empty
              rw [empty] at outcome
              exact outcome
          · next b head =>
              split at taken
              · next following link =>
                  have link : (s.buffers b).q = some following := link
                  rw [link] at taken
                  cases taken
                  exact .next head link
              · next ends =>
                  have ends : (s.buffers b).q = none := ends
                  rw [ends] at taken
                  cases taken
                  exact .last head ends

/-- The handler gets through if `idelock` is free. -/
theorem interrupt_ends (error : Bool) (garbage : Data) {rest : List (Command Data)}
    (issued : s.pending = done :: rest) (free : s.idelock = false) :
    ∃ s', interrupt error garbage s = some s' := by
  simp only [interrupt, issued, ideHandler, free, Bool.false_eq_true, if_false]
  split
  · exact ⟨_, rfl⟩
  · split <;> exact ⟨_, rfl⟩

/-- An interrupt writes to no link but `idequeue`, which moves on by one. -/
theorem InterruptOutcome.links {rest : List (Command Data)}
    (outcome : InterruptOutcome error garbage s done rest s') :
    (∀ b, (s'.buffers b).q = (s.buffers b).q) ∧ (∀ b, (s'.buffers b).next = (s.buffers b).next) ∧
      s'.cacheList = s.cacheList ∧ s'.cacheCount = s.cacheCount ∧
      s'.idequeue = s.idequeue.bind fun b => (s.buffers b).q := by
  cases outcome with
  | spurious empty =>
    refine ⟨fun _ => rfl, fun _ => rfl, rfl, rfl, ?_⟩
    simp [empty]
  | last head ends =>
    refine ⟨?_, ?_, rfl, rfl, ?_⟩
    · exact Ide.modify_field _ _ Buffer.q rfl
    · exact Ide.modify_field _ _ Buffer.next rfl
    · simp [head, ends]
  | next head link =>
    refine ⟨?_, ?_, rfl, rfl, ?_⟩
    · exact Ide.modify_field _ _ Buffer.q rfl
    · exact Ide.modify_field _ _ Buffer.next rfl
    · simp [head, link, ideOp]

end Crunchy
