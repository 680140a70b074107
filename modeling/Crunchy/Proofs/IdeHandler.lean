/-
Module: Crunchy.Proofs.IdeHandler
Purpose: The lock of the disk interrupt handler. Calls of `ide_rw` and interrupts in
  any order, interrupts between any two statements and also with no request queued:
  when `idelock` is given back, and what the handler does to the queue.
Trusted boundary: none
Main exports: RwEvent, DiskRun, diskSystem, Popped, idelock_given_back_iff
-/
import Crunchy.Proofs.IdeRuns

namespace Crunchy

open Lib

variable {Data : Type}

/-- What can happen: the owner of a buffer fills it in, calls `ide_rw` for it, the
call goes on by a statement, an interrupt comes in. -/
inductive RwEvent (Data : Type) where
  | fill (b : BufferPtr) (flags : BitVec 8) (dev block : U32) (data : Data)
  | call (b : BufferPtr)
  | statement
  | interrupt (error : Bool) (input : Data)

/-- The driver with a call of `ide_rw` in it; `spurious` records whether an interrupt
has found the queue empty, which no function reads. -/
structure DiskRun (Data : Type) where
  machine : Machine Data
  spurious : Bool

/-- The run after an event, if the event can happen. An interrupt that waits for
`idelock` does not come back. -/
def DiskRun.next (run : DiskRun Data) : RwEvent Data → Option (DiskRun Data)
  | .fill b flags dev block data =>
    match run.machine.thread with
    | .idle _ => some { run with machine.ide := run.machine.ide.modify b fun x =>
      { x with flags := flags, dev := dev, block := block, data := data } }
    | _ => none
  | .call b =>
    match run.machine.thread with
    | .idle _ => some { run with machine.thread := .rw .write b .tests }
    | _ => none
  | .statement =>
    match run.machine.thread with
    | .rw caller b pc => some { run with machine := ideRw caller b run.machine.ide pc }
    | _ => none
  | .interrupt error input =>
    match ideHandler error input run.machine.ide with
    | none => none
    | some s => some ⟨{ run.machine with ide := s },
        run.spurious || run.machine.ide.idequeue.isNone⟩

/-- Runs from a state in which nobody has the lock, with any queue. -/
def diskSystem (Data : Type) : System (DiskRun Data) (RwEvent Data) where
  Start run := run.machine.ide.idelock = false ∧ run.spurious = false
  Step before event after := before.next event = some after

/-- The handler has popped the head `b`: the queue goes on behind it, and no other
buffer and no link has changed. -/
structure Popped (s : Ide Data) (b : BufferPtr) (s' : Ide Data) : Prop where
  queue : s'.idequeue = (s.buffers b).q
  others : ∀ x, x ≠ b → s'.buffers x = s.buffers x
  link : (s'.buffers b).q = (s.buffers b).q

/-- The handler with a request queued: it comes back, gives the lock back and pops the
head. -/
theorem ideHandler_pops {s : Ide Data} {b : BufferPtr} (error : Bool) (input : Data)
    (free : s.idelock = false) (head : s.idequeue = some b) :
    ∃ s', ideHandler error input s = some s' ∧ s'.idelock = false ∧ Popped s b s' := by
  have popped : Popped s b
      ({ s with idequeue := (s.buffers b).q }.modify b (Buffer.served error input)) :=
    ⟨rfl, fun x other => Ide.modify_other _ _ other, Ide.modify_field _ _ Buffer.q rfl b⟩
  have unlocked : ¬s.idelock = true := by simp [free]
  simp only [ideHandler, if_neg unlocked, head, modify_modify, served_eq]
  split
  · exact ⟨_, rfl, free, popped.queue, popped.others, popped.link⟩
  · exact ⟨_, rfl, free, popped⟩

/-- The handler with no request queued: it changes no buffer, and keeps the lock. -/
theorem ideHandler_empty {s : Ide Data} (error : Bool) (input : Data) (free : s.idelock = false)
    (empty : s.idequeue = none) :
    ideHandler error input s = some { s with idequeue := none, idelock := true } := by
  have unlocked : ¬s.idelock = true := by simp [free]
  simp only [ideHandler, if_neg unlocked, empty]

/-- No statement of `ide_rw` touches the lock. -/
theorem idelock_ideRw (caller : Caller) (b : BufferPtr) (s : Ide Data) (pc : RwAt) :
    (ideRw caller b s pc).ide.idelock = s.idelock := by
  cases pc with
  | tests =>
    rw [ideRw]
    split
    · rfl
    · split <;> rfl
  | clear => rfl
  | walk pp =>
    rw [ideRw]
    split <;> rfl
  | link pp => cases pp <;> rfl
  | start =>
    rw [ideRw]
    split <;> rfl
  | finish => rfl

/-- One event: only an interrupt on an empty queue takes the lock and keeps it. -/
theorem DiskRun.idelock_next {before after : DiskRun Data} {event : RwEvent Data}
    (taken : before.next event = some after)
    (same : before.machine.ide.idelock = before.spurious) :
    after.machine.ide.idelock = after.spurious := by
  cases event with
  | fill b flags dev block data =>
    rw [next] at taken
    split at taken
    · cases taken
      exact same
    · exact nomatch taken
  | call b =>
    rw [next] at taken
    split at taken
    · cases taken
      exact same
    · exact nomatch taken
  | statement =>
    rw [next] at taken
    split at taken
    · cases taken
      exact (idelock_ideRw _ _ _ _).trans same
    · exact nomatch taken
  | interrupt error input =>
    rw [next] at taken
    cases locked : before.machine.ide.idelock with
    | true =>
      have waits : ideHandler error input before.machine.ide = none := if_pos locked
      rw [waits] at taken
      exact nomatch taken
    | false =>
      have calm : before.spurious = false := same.symm.trans locked
      cases queue : before.machine.ide.idequeue with
      | none =>
        rw [ideHandler_empty error input locked queue] at taken
        cases taken
        simp [queue]
      | some b =>
        obtain ⟨s, ends, free, _⟩ := ideHandler_pops error input locked queue
        rw [ends] at taken
        cases taken
        simp [queue, free, calm]

/-- What the handler may do to the requests: pop the head, or nothing if there is none. -/
def PopsHead (s s' : Ide Data) : Prop :=
  match s.idequeue with
  | some b => Popped s b s'
  | none => s'.idequeue = none ∧ s'.buffers = s.buffers

theorem pops_head {s s' : Ide Data} {error : Bool} {input : Data}
    (ends : ideHandler error input s = some s') : PopsHead s s' := by
  cases locked : s.idelock with
  | true =>
    have waits : ideHandler error input s = none := if_pos locked
    rw [waits] at ends
    exact nomatch ends
  | false =>
    rw [PopsHead]
    cases queue : s.idequeue with
    | none =>
      rw [ideHandler_empty error input locked queue] at ends
      cases ends
      exact ⟨rfl, rfl⟩
    | some b =>
      obtain ⟨s'', ends', _, popped⟩ := ideHandler_pops error input locked queue
      cases ends.symm.trans ends'
      exact popped

/-- After any sequence of calls and interrupts, with the handler not running, `idelock` is
0 exactly when no interrupt has come while the queue was empty. As long as it is 0 the
handler comes back, and whenever it does it has changed nothing in the queue but popped
the head. -/
theorem idelock_given_back_iff {run : DiskRun Data} (reached : (diskSystem Data).Reachable run) :
    (run.machine.ide.idelock = false ↔ run.spurious = false) ∧
      (run.spurious = false →
        ∀ error input, ∃ s', ideHandler error input run.machine.ide = some s') ∧
      ∀ error input s', ideHandler error input run.machine.ide = some s' →
        PopsHead run.machine.ide s' := by
  have same : run.machine.ide.idelock = run.spurious :=
    reached.invariant (fun run => run.machine.ide.idelock = run.spurious)
      (fun _ start => start.1.trans start.2.symm)
      fun _ _ _ same taken => DiskRun.idelock_next taken same
  refine ⟨by rw [same], fun calm error input => ?_, fun _ _ _ ends => pops_head ends⟩
  have free : run.machine.ide.idelock = false := same.trans calm
  cases queue : run.machine.ide.idequeue with
  | none => exact ⟨_, ideHandler_empty error input free queue⟩
  | some b =>
    obtain ⟨s', ends, _⟩ := ideHandler_pops error input free queue
    exact ⟨s', ends⟩

/-- The driver at boot. -/
def diskAtBoot : DiskRun Nat :=
  ⟨⟨⟨fun _ => ⟨0#8, 0#32, 0#32, none, none, 0⟩, none, none, 0, false, [], fun _ => 0⟩, .idle none⟩,
    false⟩

theorem disk_at_boot_reachable : (diskSystem Nat).Reachable diskAtBoot := .start ⟨rfl, rfl⟩

/-- A request for buffer 3 and the interrupt that ends it. -/
def requestServed : DiskRun Nat :=
  System.play DiskRun.next diskAtBoot (.fill 3 bBusy 1#32 5#32 0 :: .call 3 ::
    List.replicate 7 .statement ++ [.interrupt false 7])

theorem request_served_unlocked : requestServed.machine.ide.idelock = false := by
  have reached : (diskSystem Nat).Reachable requestServed :=
    disk_at_boot_reachable.play (fun _ _ _ taken => taken) _
  exact (idelock_given_back_iff reached).1.mpr (by decide +kernel)

/-- One interrupt with nothing queued. -/
def interruptAtBoot : DiskRun Nat := System.play DiskRun.next diskAtBoot [.interrupt false 0]

/-- The handler has come back with the lock still taken, so that the next interrupt waits
for ever. -/
theorem empty_queue_keeps_lock : (diskSystem Nat).Reachable interruptAtBoot ∧
    interruptAtBoot.machine.ide.idelock = true ∧
    ∀ error input, ideHandler error input interruptAtBoot.machine.ide = none :=
  ⟨disk_at_boot_reachable.play (fun _ _ _ taken => taken) _, rfl, fun _ _ => rfl⟩

end Crunchy
