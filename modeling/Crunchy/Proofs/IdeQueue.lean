/-
Module: Crunchy.Proofs.IdeQueue
Purpose: Under which interleavings of requests and completion interrupts the
  request queue of the disk driver stays a queue, and a run in which it does not.
Trusted boundary: none
Main exports: IdeRun.QueueIntact, QueueGuard, request_queue_intact,
  request_queued_twice
-/
import Crunchy.Proofs.IdeRuns

namespace Crunchy

open Lib List

variable {Data : Type}

/-- Following the `q` pointers from `idequeue` ends, meets no buffer twice, and
meets every buffer that was queued and not popped. -/
def IdeRun.QueueIntact (run : IdeRun Data) : Prop :=
  ∃ nodes, Linked (fun b => (run.ide.buffers b).q) run.ide.idequeue nodes ∧
    nodes.Nodup ∧ ∀ b ∈ run.queued, b ∈ nodes

/-- The buffer that `ide_rw` is appending, and the link it has walked to. -/
def Thread.appending : Thread → Option (BufferPtr × Link)
  | .rw _ b (.walk pp) => some (b, pp)
  | .rw _ b (.link pp) => some (b, pp)
  | _ => none

/-- The buffer in whose link `ide_rw` is about to look or to write. -/
def Thread.walkedTo : Thread → Option BufferPtr
  | .rw _ _ (.walk (.node x)) => some x
  | .rw _ _ (.link (.node x)) => some x
  | _ => none

/-- The buffer whose link `ide_rw` is about to clear. -/
def Thread.clearing : Thread → Option BufferPtr
  | .rw _ b .clear => some b
  | _ => none

/-- The buffer that the running call works on. -/
def Thread.buffer : Thread → Option BufferPtr
  | .idle _ => none
  | .get _ _ => none
  | .got _ _ b => some b
  | .mark b => some b
  | .rw _ b _ => some b
  | .retry _ _ b _ => some b

/-- `ide_rw` is not let through to the queue with a buffer that is still in it,
and no interrupt pops the buffer whose link `ide_rw` has walked to. -/
def QueueGuard (run : IdeRun Data) : IdeEvent Data → Prop
  | .advance _ _ => ∀ b ∈ run.machine.thread.clearing, b ∉ run.queued
  | .interrupt _ _ => ∀ x ∈ run.machine.thread.walkedTo, run.ide.idequeue ≠ some x
  | .read _ => True
  | .write _ => True
  | .store _ _ => True

instance (run : IdeRun Data) : (event : IdeEvent Data) → Decidable (QueueGuard run event)
  | .advance _ _ => inferInstanceAs (Decidable (∀ b ∈ run.machine.thread.clearing, _))
  | .interrupt _ _ => inferInstanceAs (Decidable (∀ x ∈ run.machine.thread.walkedTo, _))
  | .read _ => .isTrue trivial
  | .write _ => .isTrue trivial
  | .store _ _ => .isTrue trivial

theorem Thread.walkedTo_of_appending {thread : Thread} {b x : BufferPtr}
    (inside : thread.appending = some (b, .node x)) : thread.walkedTo = some x := by
  unfold appending at inside
  split at inside
  · cases inside
    rfl
  · cases inside
    rfl
  · cases inside

/-- What holds between any two statements in such a run. -/
structure QueueInvariant (s : Ide Data) (thread : Thread) (queued nodes : List BufferPtr) :
    Prop where
  cache : CacheList s nodes
  queue : Linked (fun b => (s.buffers b).q) s.idequeue queued
  queuedCached : ∀ b ∈ queued, b ∈ nodes
  buffer : ∀ b, thread.buffer = some b → b ∈ nodes
  appending : ∀ b pp, thread.appending = some (b, pp) → b ∉ queued ∧
    (s.buffers b).q = none ∧ ∀ x, pp = .node x → x ∈ queued
  atEnd : ∀ caller b pp, thread = .rw caller b (.link pp) → s.queueAt pp = none

namespace QueueInvariant

variable {s s' : Ide Data} {thread thread' : Thread} {queued nodes : List BufferPtr}

/-- A step that writes no link and does not bring `ide_rw` into the queue. -/
theorem of_links (inv : QueueInvariant s thread queued nodes)
    (queue : s'.idequeue = s.idequeue) (list : s'.cacheList = s.cacheList)
    (count : s'.cacheCount = s.cacheCount) (q : ∀ b, (s'.buffers b).q = (s.buffers b).q)
    (next : ∀ b, (s'.buffers b).next = (s.buffers b).next)
    (buffer : ∀ b, thread'.buffer = some b → b ∈ nodes) (outside : thread'.appending = none) :
    QueueInvariant s' thread' queued nodes where
  cache := inv.cache.congr list count next
  queue := by
    rw [queue]
    exact inv.queue.congr fun b _ => q b
  queuedCached := inv.queuedCached
  buffer := buffer
  appending b pp inside := by
    rw [outside] at inside
    cases inside
  atEnd caller b pp isLink := by
    rw [isLink] at outside
    cases outside

/-- A write to a buffer that keeps its links. -/
theorem of_modify (inv : QueueInvariant s thread queued nodes) {b : BufferPtr}
    {f : Buffer Data → Buffer Data} (q : (f (s.buffers b)).q = (s.buffers b).q)
    (next : (f (s.buffers b)).next = (s.buffers b).next)
    (buffer : ∀ b, thread'.buffer = some b → b ∈ nodes) (outside : thread'.appending = none) :
    QueueInvariant (s.modify b f) thread' queued nodes :=
  inv.of_links rfl rfl rfl (s.modify_field b Buffer.q q) (s.modify_field b Buffer.next next)
    buffer outside

/-- Statements that leave the driver's state alone. -/
theorem of_thread (inv : QueueInvariant s thread queued nodes)
    (buffer : ∀ b, thread'.buffer = some b → thread.buffer = some b)
    (outside : thread'.appending = none) : QueueInvariant s thread' queued nodes :=
  inv.of_links rfl rfl rfl (fun _ => rfl) (fun _ => rfl)
    (fun b isBuffer => inv.buffer b (buffer b isBuffer)) outside

/-- `buffer_get` links no buffer into the queue, and the buffer it appends to the
cache list was not queued before. -/
theorem get (inv : QueueInvariant s thread queued nodes) {block : U32}
    {outer : Option BufferPtr} {new b : BufferPtr} {memory : Buffer Data} (unused : new ∉ nodes)
    (outcome : GetOutcome s nodes 1#32 block new memory b s') :
    ∃ nodes', QueueInvariant s' (.got block outer b) queued nodes' := by
  cases outcome with
  | hit member hasDev hasBlock =>
    refine ⟨nodes, inv.of_modify rfl rfl ?_ rfl⟩
    rintro _ ⟨⟩
    exact member
  | miss absent cache appended =>
    refine ⟨nodes ++ [new], cache, ?_, ?_, ?_, ?_, ?_⟩
    · obtain ⟨buffers, list, count, rest⟩ := appended.rest
      have queue : s'.idequeue = s.idequeue := by rw [rest]
      rw [queue]
      apply inv.queue.congr
      intro x isQueued
      have notNew : x ≠ new := by
        rintro rfl
        exact unused (inv.queuedCached x isQueued)
      obtain ⟨next, kept⟩ := appended.kept x notNew
      rw [kept]
    · exact fun x isQueued => mem_append_left _ (inv.queuedCached x isQueued)
    · rintro _ ⟨⟩
      simp
    · rintro _ _ ⟨⟩
    · rintro _ _ _ ⟨⟩

variable {caller : Caller} {b : BufferPtr} {pp : Link}

/-- `b->q = 0` for a buffer that is not queued. -/
theorem clear (inv : QueueInvariant s (.rw caller b .clear) queued nodes)
    (notQueued : b ∉ queued) :
    QueueInvariant (s.modify b fun x => { x with q := none }) (.rw caller b (.walk .head))
      queued nodes where
  cache := inv.cache.congr rfl rfl (s.modify_field b Buffer.next rfl)
  queue := by
    apply inv.queue.congr
    intro x isQueued
    have other : x ≠ b := by
      rintro rfl
      exact notQueued isQueued
    rw [s.modify_other _ other]
  queuedCached := inv.queuedCached
  buffer := inv.buffer
  appending := by
    rintro _ _ ⟨⟩
    refine ⟨notQueued, ?_, ?_⟩
    · rw [Ide.modify_self]
    · rintro _ ⟨⟩
  atEnd := by rintro _ _ _ ⟨⟩

/-- The link that the loop looks at leads into the queue. -/
private theorem queueAt_mem (inv : QueueInvariant s thread queued nodes) {x : BufferPtr}
    (inside : ∀ y, pp = .node y → y ∈ queued) (link : s.queueAt pp = some x) : x ∈ queued := by
  cases pp with
  | head =>
    have queue := inv.queue
    rw [show s.idequeue = some x from link] at queue
    exact queue.head_mem
  | node y => exact inv.queue.next_mem (inside y rfl) link

/-- One turn of the loop over the queue, or its end. -/
theorem walk (inv : QueueInvariant s (.rw caller b (.walk pp)) queued nodes) :
    QueueInvariant (ideRw caller b s (.walk pp)).ide (ideRw caller b s (.walk pp)).thread
      queued nodes := by
  obtain ⟨notQueued, ends, inside⟩ := inv.appending b pp rfl
  cases link : s.queueAt pp with
  | some x =>
    simp only [ideRw, link]
    refine ⟨inv.cache, inv.queue, inv.queuedCached, inv.buffer, ?_, ?_⟩
    · rintro _ _ ⟨⟩
      refine ⟨notQueued, ends, ?_⟩
      rintro _ ⟨⟩
      exact inv.queueAt_mem inside link
    · rintro _ _ _ ⟨⟩
  | none =>
    simp only [ideRw, link]
    refine ⟨inv.cache, inv.queue, inv.queuedCached, inv.buffer, ?_, ?_⟩
    · rintro _ _ ⟨⟩
      exact ⟨notQueued, ends, inside⟩
    · rintro _ _ _ ⟨⟩
      exact link

/-- `*pp = b` puts the buffer at the end of the queue. -/
theorem link (inv : QueueInvariant s (.rw caller b (.link pp)) queued nodes) :
    QueueInvariant (s.setQueueAt (some b) pp) (.rw caller b .start) (queued ++ [b]) nodes := by
  obtain ⟨notQueued, ends, inside⟩ := inv.appending b pp rfl
  have nothing := inv.atEnd caller b pp rfl
  have cached : ∀ x ∈ queued ++ [b], x ∈ nodes := by
    intro x member
    rcases mem_append.mp member with isQueued | isNew
    · exact inv.queuedCached x isQueued
    · rw [mem_singleton.mp isNew]
      exact inv.buffer b rfl
  cases pp with
  | head =>
    have empty : queued = [] := by
      have queue := inv.queue
      rw [show s.idequeue = none from nothing] at queue
      exact queue.eq_nil
    refine ⟨inv.cache.congr rfl rfl fun _ => rfl, ?_, cached, inv.buffer, ?_, ?_⟩
    · rw [empty]
      exact ⟨rfl, ends⟩
    · rintro _ _ ⟨⟩
    · rintro _ _ _ ⟨⟩
  | node x =>
    have other : b ≠ x := by
      rintro rfl
      exact notQueued (inside b rfl)
    simp only [Ide.setQueueAt]
    refine ⟨inv.cache.congr rfl rfl (s.modify_field x Buffer.next rfl), ?_, cached,
      inv.buffer, ?_, ?_⟩
    · apply inv.queue.append (inside x rfl) nothing
      · rw [Ide.modify_self]
      · rw [s.modify_other _ other, ends]
      · intro y _ notLast
        rw [s.modify_other _ notLast]
    · rintro _ _ ⟨⟩
    · rintro _ _ _ ⟨⟩

/-- `ide_rw` returns. -/
theorem rwReturn {pc : RwAt} (inv : QueueInvariant s (.rw caller b pc) queued nodes) (i : Int) :
    QueueInvariant s (rwReturn b i caller) queued nodes := by
  cases caller with
  | read block outer => exact inv.of_thread (fun _ isBuffer => isBuffer) rfl
  | write => exact inv.of_thread (by rintro _ ⟨⟩) rfl

/-- An interrupt pops the head of the queue, and `ide_rw` has not walked to it. -/
theorem interrupt (inv : QueueInvariant s thread queued nodes) {error : Bool} {garbage : Data}
    {done : Command Data} {rest : List (Command Data)}
    (outcome : InterruptOutcome error garbage s done rest s')
    (elsewhere : ∀ x ∈ thread.walkedTo, s.idequeue ≠ some x) :
    QueueInvariant s' thread (match s.idequeue with
      | some b => queued.erase b
      | none => queued) nodes := by
  obtain ⟨q, next, list, count, popped⟩ := outcome.links
  have cache := inv.cache.congr list count next
  cases head : s.idequeue with
  | none =>
    refine ⟨cache, ?_, inv.queuedCached, inv.buffer, ?_, ?_⟩
    · rw [popped, head]
      have queue := inv.queue
      rw [head] at queue
      exact queue.congr fun b _ => q b
    · intro b pp inside
      rw [q b]
      exact inv.appending b pp inside
    · intro caller b pp isLink
      have ends := inv.atEnd caller b pp isLink
      cases pp with
      | head => exact popped.trans (by rw [head]; rfl)
      | node x => exact (q x).trans ends
  | some first =>
    have queue := inv.queue
    have walked : ∀ b x, thread.appending = some (b, .node x) → x ∈ queued.erase first := by
      intro b x inside
      refine (mem_erase_of_ne ?_).mpr ((inv.appending b _ inside).2.2 x rfl)
      rintro rfl
      exact elsewhere x (Thread.walkedTo_of_appending inside) head
    refine ⟨cache, ?_, ?_, inv.buffer, ?_, ?_⟩
    · rw [popped, head]
      cases queued with
      | nil =>
        rw [head] at queue
        cases queue
      | cons other others =>
        obtain rfl : first = other := Option.some.inj (head.symm.trans queue.1)
        show Linked _ _ ((first :: others).erase first)
        rw [erase_cons_head]
        exact queue.2.congr fun b _ => q b
    · exact fun b member => inv.queuedCached b (mem_of_mem_erase member)
    · intro b pp inside
      obtain ⟨notQueued, ends, _⟩ := inv.appending b pp inside
      refine ⟨fun member => notQueued (mem_of_mem_erase member), (q b).trans ends, ?_⟩
      rintro x rfl
      exact walked b x inside
    · intro caller b pp isLink
      have ends := inv.atEnd caller b pp isLink
      cases pp with
      | head =>
        rw [show s.idequeue = none from ends] at head
        cases head
      | node x => exact (q x).trans ends

/-- The next statement of the running call. -/
theorem advance (inv : QueueInvariant s thread queued nodes) {new : BufferPtr}
    {memory : Buffer Data} {m : Machine Data} (unused : new ∉ nodes) (ends : memory.next = none)
    (notQueued : ∀ b ∈ thread.clearing, b ∉ queued)
    (taken : Machine.advance new memory ⟨s, thread⟩ = some m) :
    ∃ nodes', QueueInvariant m.ide m.thread (match thread with
      | .rw _ b (.link _) => queued ++ [b]
      | _ => queued) nodes' := by
  cases thread with
  | idle result => cases taken
  | get block outer =>
    obtain ⟨b, after, got, outcome⟩ := bufferGet_outcome inv.cache 1#32 block unused ends
    simp only [Machine.advance, got] at taken
    cases taken
    exact inv.get unused outcome
  | got block outer b =>
    simp only [Machine.advance] at taken
    split at taken
    · cases taken
      exact ⟨nodes, inv.of_thread (fun _ isBuffer => isBuffer) rfl⟩
    · cases taken
      exact ⟨nodes, inv.of_thread (fun _ isBuffer => isBuffer) rfl⟩
  | mark b =>
    cases taken
    refine ⟨nodes, ?_⟩
    dsimp only
    exact inv.of_modify rfl rfl inv.buffer rfl
  | rw caller b pc =>
    cases taken
    cases pc with
    | tests =>
      refine ⟨nodes, ?_⟩
      simp only [ideRw]
      split
      · exact inv.rwReturn (-1)
      · split
        · exact inv.rwReturn (-2)
        · exact inv.of_thread (fun _ isBuffer => isBuffer) rfl
    | clear => exact ⟨nodes, inv.clear (notQueued b rfl)⟩
    | walk pp => exact ⟨nodes, inv.walk⟩
    | link pp => exact ⟨nodes, inv.link⟩
    | start =>
      refine ⟨nodes, inv.of_links ?_ ?_ ?_ ?_ ?_ inv.buffer rfl⟩
      all_goals simp only [ideRw]; split <;> first | rfl | exact fun _ => rfl
    | finish => exact ⟨nodes, inv.rwReturn 0⟩
  | retry block outer b i =>
    simp only [Machine.advance] at taken
    split at taken
    · cases taken
      exact ⟨nodes, inv.of_thread (by rintro _ ⟨⟩) rfl⟩
    · cases taken
      exact ⟨nodes, inv.of_thread (by rintro _ ⟨⟩) rfl⟩

/-- The invariant holds after `buffer_init`. -/
theorem start {run : IdeRun Data} (fresh : run.Fresh) :
    ∃ nodes, QueueInvariant run.ide run.machine.thread run.queued nodes := by
  obtain ⟨list, s, empty, _, _, rfl⟩ := fresh
  obtain ⟨cache, _, buffers, globals⟩ := cacheList_bufferInit list s
  refine ⟨_, cache, ?_, ?_, ?_, ?_, ?_⟩
  · show (bufferInit list s).idequeue = none
    exact empty
  · rintro _ ⟨⟩
  · rintro _ ⟨⟩
  · rintro _ _ ⟨⟩
  · rintro _ _ _ ⟨⟩

/-- Every event that the guard lets through preserves the invariant. -/
theorem step {run after : IdeRun Data} {event : IdeEvent Data}
    (inv : QueueInvariant run.ide run.machine.thread run.queued nodes)
    (guarded : QueueGuard run event) (legal : event.Legal run.ide)
    (taken : run.next event = some after) :
    ∃ nodes', QueueInvariant after.ide after.machine.thread after.queued nodes' := by
  obtain ⟨⟨s, thread⟩, queued, volume⟩ := run
  obtain ⟨m, queued', volume'⟩ := after
  obtain ⟨moved, isQueued, _⟩ := IdeRun.next_eq_some taken
  subst isQueued
  cases event with
  | read block =>
    cases thread with
    | idle result =>
      cases moved
      exact ⟨nodes, inv.of_thread (by rintro _ ⟨⟩) rfl⟩
    | _ => cases moved
  | write b =>
    cases thread with
    | idle result =>
      cases moved
      refine ⟨nodes, inv.of_links rfl rfl rfl (fun _ => rfl) (fun _ => rfl) ?_ rfl⟩
      rintro _ ⟨⟩
      exact (inv.cache.cached_iff b).mp legal.1
    | _ => cases moved
  | store b data =>
    cases thread with
    | idle result =>
      cases moved
      refine ⟨nodes, ?_⟩
      dsimp only [IdeRun.ide]
      apply inv.of_modify rfl rfl _ rfl
      rintro _ ⟨⟩
    | _ => cases moved
  | advance new memory =>
    have unused : new ∉ nodes := fun member => legal.1 ((inv.cache.cached_iff new).mpr member)
    exact inv.advance unused legal.2 guarded moved
  | interrupt error garbage =>
    simp only [Machine.next] at moved
    split at moved
    · next s' handled =>
        cases moved
        obtain ⟨done, rest, _, _, outcome⟩ := interrupt_outcome handled
        exact ⟨nodes, inv.interrupt outcome guarded⟩
    · cases moved

end QueueInvariant

/-- In every run in which no request is made for a buffer that is still queued
and no interrupt pops the buffer `ide_rw` has walked to, the request queue stays
a queue: it ends, has no buffer twice, and has every buffer that was queued and
not popped. -/
theorem request_queue_intact {run : IdeRun Data}
    (reached : ((ideSystem Data).restrict QueueGuard).Reachable run) : run.QueueIntact := by
  obtain ⟨nodes, inv⟩ := reached.invariant
    (fun run => ∃ nodes, QueueInvariant run.ide run.machine.thread run.queued nodes)
    (fun _ fresh => QueueInvariant.start fresh)
    (fun _ _ _ ⟨_, inv⟩ ⟨guarded, legal, taken⟩ => inv.step guarded legal taken)
  exact ⟨run.queued, inv.queue, inv.queue.nodup, fun _ member => member⟩

/-! ### Runs on a small disk -/

/-- Memory that reads as zero. -/
def zeroBuffer : Buffer Nat := ⟨0#8, 0#32, 0#32, none, none, 0⟩

/-- The driver after boot; block `n` of the disk holds `n + 1`. -/
def bootedIde : IdeRun Nat :=
  let s : Ide Nat := ⟨fun _ => zeroBuffer, none, none, 0, false, [], fun block => block + 1⟩
  ⟨⟨bufferInit 0 s, .idle none⟩, [], ⟨fun block => s.disk block.toNat,
    fun block => s.disk block.toNat⟩⟩

theorem bootedIde_fresh : bootedIde.Fresh := ⟨0, _, rfl, rfl, rfl, rfl⟩

/-- Call `buffer_read(1, block)` and run it for some statements after `buffer_get`,
in which `malloc` would return the buffer `new`. -/
def readFor (block : U32) (new : BufferPtr) (statements : Nat) : List (IdeEvent Nat) :=
  .read block :: .advance new zeroBuffer ::
    List.replicate statements (.advance 99 zeroBuffer)

/-- Block 4 is requested while the drive is reading block 3. -/
def twoRequests : IdeRun Nat :=
  System.play (IdeRun.checkedNext QueueGuard) bootedIde
    (readFor 3#32 16 8 ++ readFor 4#32 17 9)

theorem two_requests_intact : twoRequests.queued = [16, 17] ∧ twoRequests.QueueIntact := by
  have reached : ((ideSystem Nat).restrict QueueGuard).Reachable twoRequests :=
    reachable_script QueueGuard bootedIde_fresh _
  constructor
  · decide +kernel
  · exact request_queue_intact reached

/-- Block 3 is requested again before the drive has delivered it. -/
def twiceRequested : IdeRun Nat :=
  System.play (IdeRun.checkedNext fun _ _ => True) bootedIde
    (readFor 3#32 16 8 ++ readFor 3#32 17 6)

/-- The second `ide_rw` for a buffer that is still queued links it to itself. -/
theorem request_queued_twice :
    ¬∀ run : IdeRun Nat, (ideSystem Nat).Reachable run → run.QueueIntact := by
  intro intact
  have reached : (ideSystem Nat).Reachable twiceRequested :=
    (reachable_script (fun _ _ => True) bootedIde_fresh _).of_restrict
  obtain ⟨nodes, linked, _⟩ := intact twiceRequested reached
  have head : twiceRequested.ide.idequeue = some 16 := by decide +kernel
  have loop : (twiceRequested.ide.buffers 16).q = some 16 := by decide +kernel
  rw [head] at linked
  exact linked.next_ne_self loop

end Crunchy
