/-
Module: Crunchy.Proofs.Spinlock
Purpose: Mutual exclusion of the spinlock. A processor owns a lock from the `xchg`
  that found it 0 to the `xchg` that puts the 0 back; at most one does, whatever
  the order in which the processors' instructions are executed.
Trusted boundary: none
Main exports: smpSystem, Owns, LockInvariant, lock_excludes, lock_free_iff
-/
import Crunchy.Arch.Sched
import Crunchy.Lib.Transition

variable {zf : Bool} {c next : Call} {after p : Processor} {eax ecx l : U32} {words : U32 → U32}

namespace Crunchy.Sched

open Lib Option Function

/-- Any number of processors, none of them in a routine and none holding a lock,
and a lock word that is 0. The other words may hold anything. -/
def smpSystem (P : Type) [DecidableEq P] (lock : U32) : System (Smp P) (P × Action) where
  Start m := m.words lock = 0#32 ∧ ∀ p, (m.cpus p).call = none ∧ ∀ l, (m.cpus p).held l = false
  Step before event after := before.next event.1 event.2 = some after

/-! ### Ownership -/

/-- A call that has the lock: `acquire` after an `xchg` that got 0, `release` before
its own `xchg`. -/
def Call.Owns (lock : U32) (c : Call) : Prop :=
  c.lock = lock ∧
    match c.routine, c.pc with
    | .acquire, 3 => c.eax = 0#32
    | .acquire, 4 => c.zf = true
    | .acquire, 5 => c.zf = true
    | .acquire, 6 => True
    | .acquire, _ => False
    | .release, pc => pc ≤ 2

/-- The registers when they matter: `ecx` points to the lock and `eax` has the value
to put there. -/
def Call.Ready (c : Call) : Prop :=
  match c.routine, c.pc with
  | _, 1 => c.ecx = c.lock
  | .acquire, 2 => c.ecx = c.lock ∧ c.eax = 1#32
  | .release, 2 => c.ecx = c.lock ∧ c.eax = 0#32
  | _, _ => True

/-- A processor has the lock, to itself or in a call. -/
def Processor.Owns (lock : U32) (p : Processor) : Prop :=
  p.held lock = true ∨ ∃ c, p.call = some c ∧ c.Owns lock

/-- What holds of one processor: the registers of its call are as they should be, and
a lock that is being released is no longer held. -/
def Processor.Sound (p : Processor) : Prop :=
  ∀ c, p.call = some c → c.Ready ∧ (c.routine = .release → p.held c.lock = false)

/-- What one processor's step can do to a lock whose word goes from `w` to `w'`: it
takes no lock and empties no word, it takes the lock that was free, or it gives its
own lock up. -/
inductive Moves (lock w w' : U32) (before after : Processor) : Prop where
  | kept (still : w ≠ 0#32 → w' ≠ 0#32) (own : after.Owns lock → before.Owns lock)
  | taken (free : w = 0#32) (filled : w' ≠ 0#32)
  | given (own : before.Owns lock) (gone : ¬after.Owns lock)

/-- A processor that holds what it held and goes on in its call. -/
theorem Moves.of_call {lock w w' : U32} (call : p.call = some c) (still : w ≠ 0#32 → w' ≠ 0#32)
    (own : next.Owns lock → c.Owns lock) :
    Moves lock w w' p (p.resume c (some next)) := by
  apply Moves.kept still
  rintro (held | ⟨_, same, owns⟩)
  · exact Or.inl held
  · cases same
    exact Or.inr ⟨c, call, own owns⟩

theorem Processor.Sound.of_call (sound : p.Sound) (call : p.call = some c) (ready : next.Ready)
    (routine : next.routine = c.routine) (lock : next.lock = c.lock) :
    (p.resume c (some next)).Sound := by
  intro _ same
  cases same
  refine ⟨ready, fun releasing => ?_⟩
  rw [lock]
  exact (sound c call).2 (routine ▸ releasing)

/-! ### One step of one processor -/

/-- Calling a routine. -/
theorem enter_moves {routine : Routine} (lock w : U32)
    (entered : p.enter routine l eax ecx zf = some after) :
    Moves lock w w p after ∧ after.Sound := by
  unfold Processor.enter at entered
  split at entered
  · exact nomatch entered
  · cases entered
    refine ⟨.kept id ?_, ?_⟩
    · rintro (held | ⟨_, same, _, owns⟩)
      · exact Or.inl held
      · cases same
        exact owns.elim
    · intro _ same
      cases same
      exact ⟨trivial, nofun⟩
  · split at entered
    · rename_i held
      cases entered
      refine ⟨.kept id ?_, ?_⟩
      · rintro (still | ⟨_, same, rfl, _⟩)
        · dsimp only at still
          rw [update_apply] at still
          split at still
          · exact nomatch still
          · exact Or.inl still
        · cases same
          exact Or.inl held
      · intro _ same
        cases same
        exact ⟨trivial, fun _ => update_self _ _ _⟩
    · exact nomatch entered

/-- The `xchg` of `acquire`: the lock is taken where its word was 0. -/
theorem acquire_xchg_moves (lock : U32) (call : p.call = some ⟨.acquire, l, 2, eax, ecx, zf⟩)
    (sound : p.Sound) :
    Moves lock (words lock) (Function.update words ecx eax lock) p
      (p.resume ⟨.acquire, l, 2, eax, ecx, zf⟩
        (some ⟨.acquire, l, 3, words ecx, ecx, zf⟩)) := by
  obtain ⟨pointed, one⟩ : ecx = l ∧ eax = 1#32 := (sound _ call).1
  subst pointed one
  by_cases other : ecx = lock
  · subst other
    have filled : Function.update words ecx 1#32 ecx ≠ 0#32 := by simp
    by_cases free : words ecx = 0#32
    · exact .taken free filled
    · exact .of_call call (fun _ => filled) fun owns => absurd owns.2 free
  · rw [update_of_ne (Ne.symm other)]
    exact .of_call call id fun owns => absurd owns.1 other

/-- The `xchg` of `release`: the lock is given up. -/
theorem release_xchg_moves (lock : U32) (call : p.call = some ⟨.release, l, 2, eax, ecx, zf⟩)
    (sound : p.Sound) :
    Moves lock (words lock) (Function.update words ecx eax lock) p
      (p.resume ⟨.release, l, 2, eax, ecx, zf⟩
        (some ⟨.release, l, 3, words ecx, ecx, zf⟩)) := by
  have pointed : ecx = l := (sound _ call).1.1
  have unheld : p.held l = false := (sound _ call).2 rfl
  subst pointed
  by_cases other : ecx = lock
  · subst other
    refine .given (Or.inr ⟨_, call, rfl, Nat.le_refl 2⟩) ?_
    rintro (held | ⟨_, same, _, owns⟩)
    · exact absurd (held.symm.trans unheld) nofun
    · cases same
      exact absurd (show 3 ≤ 2 from owns) (by decide)
  · rw [update_of_ne (Ne.symm other)]
    exact .of_call call id fun owns => absurd owns.1 other

/-- One instruction. -/
theorem execute_moves {instr : Instr} (lock : U32) (words : U32 → U32) (call : p.call = some c)
    (fetched : c.routine.code[c.pc]? = some instr) (sound : p.Sound) :
    Moves lock (words lock) ((c.exec words instr).2 lock) p
        (p.resume c (c.exec words instr).1) ∧
      (p.resume c (c.exec words instr).1).Sound := by
  obtain ⟨routine, l, pc, eax, ecx, zf⟩ := c
  cases routine with
  | acquire =>
    match pc, fetched with
    | 0, rfl => exact ⟨.of_call call id nofun, sound.of_call call rfl rfl rfl⟩
    | 1, rfl =>
      have pointed : ecx = l := (sound _ call).1
      exact ⟨.of_call call id nofun, sound.of_call call ⟨pointed, rfl⟩ rfl rfl⟩
    | 2, rfl =>
      exact ⟨acquire_xchg_moves lock call sound, sound.of_call call trivial rfl rfl⟩
    | 3, rfl =>
      refine ⟨.of_call call id fun owns => ⟨owns.1, ?_⟩, sound.of_call call trivial rfl rfl⟩
      have zero : eax = 0#32 := of_decide_eq_true owns.2
      exact zero
    | 4, rfl => exact ⟨.of_call call id id, sound.of_call call trivial rfl rfl⟩
    | 5, rfl =>
      cases zf with
      | true =>
        exact ⟨.of_call call id fun owns => ⟨owns.1, rfl⟩,
          sound.of_call call trivial rfl rfl⟩
      | false => exact ⟨.of_call call id nofun, sound.of_call call trivial rfl rfl⟩
    | 6, rfl =>
      refine ⟨.kept id ?_, nofun⟩
      rintro (held | ⟨_, none, _⟩)
      · by_cases same : l = lock
        · exact Or.inr ⟨_, call, same, trivial⟩
        · exact Or.inl ((update_of_ne (Ne.symm same) _ _).symm.trans held)
      · exact nomatch none
  | release =>
    match pc, fetched with
    | 0, rfl =>
      exact ⟨.of_call call id fun owns => ⟨owns.1, Nat.zero_le 2⟩,
        sound.of_call call rfl rfl rfl⟩
    | 1, rfl =>
      have pointed : ecx = l := (sound _ call).1
      exact ⟨.of_call call id fun owns => ⟨owns.1, Nat.le_succ 1⟩,
        sound.of_call call ⟨pointed, rfl⟩ rfl rfl⟩
    | 2, rfl =>
      exact ⟨release_xchg_moves lock call sound, sound.of_call call trivial rfl rfl⟩
    | 3, rfl =>
      refine ⟨.kept id ?_, nofun⟩
      rintro (held | ⟨_, none, _⟩)
      · exact Or.inl held
      · exact nomatch none

/-- Whatever a processor does, each lock moves in one of the three ways. -/
theorem next_moves {words' : U32 → U32} {action : Action} (lock : U32)
    (taken : p.next words action = some (after, words')) (sound : p.Sound) :
    Moves lock (words lock) (words' lock) p after ∧ after.Sound := by
  cases action with
  | enter routine l eax ecx zf =>
    obtain ⟨entered, isEntered, same⟩ := map_eq_some_iff.mp taken
    cases same
    exact enter_moves lock _ isEntered
  | execute =>
    rw [Processor.next] at taken
    split at taken
    · exact nomatch taken
    · rename_i c call
      split at taken
      · exact nomatch taken
      · rename_i instr fetched
        cases taken
        exact execute_moves lock words call fetched sound

/-- An owned lock's word is not 0, and a lock has one owner. -/
structure LockInvariant {P : Type} (lock : U32) (m : Smp P) : Prop where
  sound : ∀ p, (m.cpus p).Sound
  filled : ∀ p, (m.cpus p).Owns lock → m.words lock ≠ 0#32
  one : ∀ p q, (m.cpus p).Owns lock → (m.cpus q).Owns lock → p = q

namespace LockInvariant

variable {P : Type} [DecidableEq P] {lock : U32} {m after : Smp P}

theorem start (isStart : (smpSystem P lock).Start m) : LockInvariant lock m := by
  have unowned : ∀ p, ¬(m.cpus p).Owns lock := by
    rintro p (held | ⟨c, call, _⟩)
    · exact absurd (held.symm.trans ((isStart.2 p).2 lock)) nofun
    · exact absurd (call.symm.trans (isStart.2 p).1) nofun
  refine ⟨fun p c call => ?_, fun p own => absurd own (unowned p),
    fun p _ own => absurd own (unowned p)⟩
  exact absurd (call.symm.trans (isStart.2 p).1) nofun

/-- The processor `who` moves the lock and the others stay as they are. -/
theorem of_moves (inv : LockInvariant lock m) {who : P}
    (moves : Moves lock (m.words lock) (words lock) (m.cpus who) p) (sound : p.Sound) :
    LockInvariant lock ⟨words, Function.update m.cpus who p⟩ := by
  have owner : ∀ q, (Function.update m.cpus who p q).Owns lock →
      q = who ∧ p.Owns lock ∨ q ≠ who ∧ (m.cpus q).Owns lock := by
    intro q own
    by_cases same : q = who
    · subst same
      exact Or.inl ⟨rfl, update_self q p m.cpus ▸ own⟩
    · exact Or.inr ⟨same, update_of_ne same p m.cpus ▸ own⟩
  have soundAll : ∀ q, (Function.update m.cpus who p q).Sound := by
    intro q
    by_cases same : q = who
    · rw [same, update_self]
      exact sound
    · rw [update_of_ne same]
      exact inv.sound q
  cases moves with
  | kept still own =>
    have before : ∀ q, (Function.update m.cpus who p q).Owns lock → (m.cpus q).Owns lock := by
      intro q owns
      rcases owner q owns with ⟨rfl, itself⟩ | ⟨_, other⟩
      · exact own itself
      · exact other
    exact ⟨soundAll, fun q owns => still (inv.filled q (before q owns)),
      fun q r ownQ ownR => inv.one q r (before q ownQ) (before r ownR)⟩
  | taken free filled =>
    have itself : ∀ q, (Function.update m.cpus who p q).Owns lock → q = who := by
      intro q owns
      rcases owner q owns with ⟨same, _⟩ | ⟨_, other⟩
      · exact same
      · exact absurd free (inv.filled q other)
    exact ⟨soundAll, fun _ _ => filled,
      fun q r ownQ ownR => (itself q ownQ).trans (itself r ownR).symm⟩
  | given own gone =>
    have nobody : ∀ q, ¬(Function.update m.cpus who p q).Owns lock := by
      intro q owns
      rcases owner q owns with ⟨_, itself⟩ | ⟨notWho, other⟩
      · exact gone itself
      · exact notWho (inv.one q who other own)
    exact ⟨soundAll, fun q owns => absurd owns (nobody q),
      fun q _ owns => absurd owns (nobody q)⟩

theorem step (inv : LockInvariant lock m) {event : P × Action}
    (taken : (smpSystem P lock).Step m event after) : LockInvariant lock after := by
  obtain ⟨⟨p, words⟩, moved, rfl⟩ := map_eq_some_iff.mp taken
  obtain ⟨moves, sound⟩ := next_moves lock moved (inv.sound event.1)
  exact inv.of_moves moves sound

end LockInvariant

/-- In every state that any interleaving of the processors' instructions reaches, at most
one processor has come back from `acquire` and not called `release` since. -/
theorem lock_excludes {P : Type} [DecidableEq P] {lock : U32} {m : Smp P}
    (reached : (smpSystem P lock).Reachable m) {p q : P} (one : (m.cpus p).held lock = true)
    (two : (m.cpus q).held lock = true) : p = q := by
  have inv : LockInvariant lock m := reached.invariant (LockInvariant lock)
    (fun _ isStart => .start isStart) fun _ _ _ inv taken => inv.step taken
  exact inv.one p q (Or.inl one) (Or.inl two)

/-- Two processors at rest. -/
def twoAtRest : Smp Bool := ⟨fun _ => 0#32, fun _ => ⟨none, fun _ => false⟩⟩

/-- One of them takes the lock while the other one waits for it. -/
def oneInside : Smp Bool :=
  System.play (fun m event => m.next event.1 event.2) twoAtRest
    ((true, .enter .acquire 8#32 5#32 5#32 false) ::
      (false, .enter .acquire 8#32 0#32 0#32 true) ::
      List.replicate 7 (true, .execute) ++ List.replicate 20 (false, .execute))

theorem one_inside_alone : (oneInside.cpus true).held 8#32 = true ∧
    (∀ q, (oneInside.cpus q).held 8#32 = true → true = q) := by
  have inside : (oneInside.cpus true).held 8#32 = true := by decide +kernel
  have atRest : (smpSystem Bool 8#32).Reachable twoAtRest :=
    .start ⟨rfl, fun _ => ⟨rfl, fun _ => rfl⟩⟩
  have reached : (smpSystem Bool 8#32).Reachable oneInside :=
    atRest.play (fun _ _ _ taken => taken) _
  exact ⟨inside, fun q other => lock_excludes reached inside other⟩

end Crunchy.Sched
