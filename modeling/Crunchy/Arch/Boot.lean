/-
Module: Crunchy.Arch.Boot
Purpose: The start of the processors, in any order of their steps: `kernel_initialize` and
  `mp_start_ap`, `ap_entry` and `mp_enter`, `scheduler`.
Trusted boundary: human-reviewed spec. A lock is its owner, as `Crunchy.Proofs.Spinlock` shows.
Main exports: Place, Shared, step, Boot, bootSystem, Invariant, boot_meets, own_stacks_iff,
  boot_completes
-/
import Crunchy.Lib.Transition
import Mathlib.Algebra.Order.BigOperators.Group.Finset

namespace Crunchy.Mp

open Lib Function Finset

/-- What a processor executes next. -/
inductive Place where
  /-- `acquire(&km)` in `kernel_initialize` -/
  | boot
  /-- Round `i` of `mp_start_ap`: the stack is stored at `code - 4`, … -/
  | pass (i : Nat)
  /-- … then `lapic_start_AP(i, 0x8000)`. -/
  | start (i : Nat)
  /-- `while(mp_number_of_processors() != nproc)` -/
  | wait
  /-- `release(&km)` in `kernel_initialize` -/
  | leave
  | halted
  /-- `mov esp, [start-4]` in `ap_entry` -/
  | entry
  /-- `acquire(&proc_m)` in `mp_enter` -/
  | enter
  /-- `ncpu++`: the load, … -/
  | load
  /-- … then the store. -/
  | store (loaded : Nat)
  /-- The tables and the LAPIC, then `release(&proc_m)`. -/
  | setup
  /-- `acquire(&km)` in `scheduler` -/
  | scheduler
  /-- The message, then `release(&km)`. -/
  | release
  | idle

/-- What they share: who took a lock, the round whose stack is at `code - 4`, the processors
that were sent a startup interrupt, and each processor with the stack it took. -/
structure Shared where
  km : Option Nat
  procM : Option Nat
  ncpu : Nat
  arg : Nat
  startup : List Nat
  stackOf : List (Nat × Nat)

/-- What `who` does next; nothing while it spins. -/
def step (nproc who : Nat) (s : Shared) : Place → Option (Place × Shared)
  | .boot => if s.km = none then some (.pass 1, { s with km := some who }) else none
  | .pass i => some (if i < nproc then (.start i, { s with arg := i }) else (.wait, s))
  | .start i => some (.pass (i + 1), { s with startup := i :: s.startup })
  | .wait => if s.ncpu + 1 = nproc then some (.leave, s) else none
  | .leave => some (.scheduler, { s with km := none })
  | .halted => if who ∈ s.startup then some (.entry, s) else none
  | .entry => some (.enter, { s with stackOf := (who, s.arg) :: s.stackOf })
  | .enter => if s.procM = none then some (.load, { s with procM := some who }) else none
  | .load => some (.store s.ncpu, s)
  | .store loaded => some (.setup, { s with ncpu := loaded + 1 })
  | .setup => some (.scheduler, { s with procM := none })
  | .scheduler => if s.km = none then some (.release, { s with km := some who }) else none
  | .release => some (.idle, { s with km := none })
  | .idle => none

/-- The processors, of which 0 is the boot processor. -/
structure Boot where
  place : Nat → Place
  shared : Shared

def Boot.next (nproc : Nat) (b : Boot) (who : Nat) : Option Boot :=
  (step nproc who b.shared (b.place who)).map fun after =>
    ⟨update b.place who after.1, after.2⟩

/-- Before `kernel_initialize` takes `km`. -/
def Boot.start : Boot := ⟨update (fun _ => .halted) 0 .boot, none, none, 0, 0, [], []⟩

/-- Several processors, in any order. -/
def bootSystem (nproc : Nat) : System Boot Nat where
  Start b := 1 < nproc ∧ b = Boot.start
  Step before who after := before.next nproc who = some after

namespace Place

/-- Between `acquire(&km)` and `release(&km)`. -/
@[grind] def holdsKm : Place → Bool
  | pass _ | start _ | wait | leave | release => true
  | _ => false

/-- Between `acquire(&proc_m)` and `release(&proc_m)`. -/
@[grind] def holdsProcM : Place → Bool
  | load | store _ | setup => true
  | _ => false

/-- One of the `mp_number_of_processors()`. -/
@[grind] def counted : Place → Bool
  | halted | entry | enter | load | store _ => false
  | _ => true

/-- In `kernel_initialize` or, on another processor, before `scheduler`. -/
@[grind] def role : Place → Option Bool
  | boot | pass _ | start _ | wait | leave => some true
  | halted | entry | enter | load | store _ | setup => some false
  | _ => none

/-- Past the wait for `ncpu` or the lock of `scheduler`. -/
@[grind] def past : Place → Bool
  | leave | release | idle => true
  | _ => false

/-- Below which processor the startup interrupts are sent. -/
@[grind] def sent (nproc : Nat) : Place → Nat
  | boot => 1
  | pass i | start i => i
  | _ => nproc

end Place

open Place

variable {nproc who : Nat} {b after : Boot} {s s' : Shared} {x y : Place}

section

variable (moved : step nproc who s x = some (y, s'))
include moved

theorem step_km (own : x.holdsKm = true ↔ s.km = some who) :
    (y.holdsKm = true ↔ s'.km = some who) ∧ ∀ p ≠ who, s'.km = some p ↔ s.km = some p := by
  cases x <;> grind [step]

theorem step_procM (own : x.holdsProcM = true ↔ s.procM = some who) :
    (y.holdsProcM = true ↔ s'.procM = some who) ∧
      ∀ p ≠ who, s'.procM = some p ↔ s.procM = some p := by
  cases x <;> grind [step]

theorem step_ncpu : (s'.ncpu = s.ncpu ∧ y.counted = x.counted ∧ ∀ n, y = store n → n = s.ncpu) ∨
    ∃ n, x = store n ∧ y = setup ∧ s'.ncpu = n + 1 := by
  cases x <;> grind [step]

theorem step_past : (y.past = true → x.past = true ∨ x = scheduler ∧ s.km = none ∨
    s.ncpu + 1 = nproc) ∧ (y = scheduler → x.past = true ∨ x = setup) := by
  cases x <;> grind [step]

theorem step_startup : (∀ p ∈ s.startup, p ∈ s'.startup) ∧
    (x.role ≠ some true → s'.startup = s.startup) ∧ (x = halted → who ∈ s.startup) ∧
    (y.role = x.role ∨ y.role = none) ∧
    ∀ p i, (p, i) ∈ s'.stackOf → (p, i) ∈ s.stackOf ∨ p = who ∧ x = entry := by
  cases x <;> grind [step]

end

/-- The rounds of `mp_start_ap` that are done at `x`. -/
structure Rounds (nproc : Nat) (startup : List Nat) (x : Place) : Prop where
  sent : ∀ p, p ∈ startup ↔ 0 < p ∧ p < x.sent nproc
  bound : 0 < x.sent nproc ∧ x.sent nproc ≤ nproc
  more : ∀ i, x = .start i → i < nproc

theorem Rounds.step (moved : step nproc who s x = some (y, s'))
    (rounds : Rounds nproc s.startup x) : Rounds nproc s'.startup y := by
  obtain ⟨sent, bound, more⟩ := rounds
  constructor <;> cases x <;> grind [Mp.step]

/-- What holds in every run. -/
structure Invariant (nproc : Nat) (b : Boot) : Prop where
  km : ∀ p, (b.place p).holdsKm = true ↔ b.shared.km = some p
  procM : ∀ p, (b.place p).holdsProcM = true ↔ b.shared.procM = some p
  role : ∀ p r, (b.place p).role = some r → r = decide (p = 0)
  rounds : Rounds nproc b.shared.startup (b.place 0)
  halted : ∀ p, p ∉ b.shared.startup → 0 < p → b.place p = .halted
  taker : ∀ p i, (p, i) ∈ b.shared.stackOf → p ∈ b.shared.startup
  loaded : ∀ p n, b.place p = .store n → n = b.shared.ncpu
  count : b.shared.ncpu + 1 = #{p ∈ range nproc | (b.place p).counted}
  met : ∀ p, (b.place p).past = true ∨ b.place 0 = .scheduler →
    ∀ q < nproc, (b.place q).counted = true

namespace Invariant

attribute [local grind =] update_apply

theorem start (smp : 1 < nproc) : Invariant nproc Boot.start := by
  have place : ∀ p, Boot.start.place p = if p = 0 then .boot else .halted :=
    update_apply (fun _ => Place.halted) 0 .boot
  have one : {p ∈ range nproc | (Boot.start.place p).counted} = {0} := by
    ext p
    grind
  constructor
  case count =>
    rw [one]
    rfl
  case rounds => constructor <;> grind [Boot.start]
  all_goals grind [Boot.start]

/-- Who finds `km` free in `scheduler` comes after the boot processor. -/
theorem met_of_free (inv : Invariant nproc b) (who : Nat) (there : b.place who = .scheduler)
    (free : b.shared.km = none) : (b.place 0).past = true ∨ b.place 0 = .scheduler := by
  have role := inv.role 0 false
  cases first : b.place 0 <;> grind [inv.km 0, inv.rounds.sent who, inv.halted who]

theorem step (inv : Invariant nproc b) (taken : b.next nproc who = some after) :
    Invariant nproc after := by
  obtain ⟨⟨y, s'⟩, moved, rfl⟩ := Option.map_eq_some_iff.mp taken
  have itself := inv.role who
  have startup := step_startup moved
  have ncpu := step_ncpu moved
  constructor
  case km => grind [inv.km, step_km moved (inv.km who)]
  case procM => grind [inv.procM, step_procM moved (inv.procM who)]
  case role => grind [inv.role]
  case rounds => grind [inv.rounds, Rounds.step moved]
  case halted => grind [inv.halted]
  case taker => grind [inv.halted who, inv.taker]
  case loaded =>
    intro p n
    grind [inv.loaded p n, inv.procM p, inv.procM who]
  case count =>
    show s'.ncpu + 1 = _
    rcases ncpu with ⟨same, counted, _⟩ | ⟨n, storing, rfl, more⟩
    · rw [same, inv.count]
      refine congrArg card (filter_congr fun p _ => ?_)
      grind
    · -- nobody else is in `ncpu++`, so the count is still what was loaded
      have added : {p ∈ range nproc | (update b.place who .setup p).counted} =
          insert who {p ∈ range nproc | (b.place p).counted} := by
        ext p
        grind [inv.halted who, inv.rounds.sent who, inv.rounds.bound]
      rw [added, card_insert_of_notMem (by simp [storing, counted.eq_def]), ← inv.count, more,
        inv.loaded who n storing]
  case met =>
    intro p there q inside
    have free := inv.met_of_free who
    have all := card_filter_eq_iff (s := range nproc) (p := fun p => (b.place p).counted = true)
    have before : (b.place q).counted = true := by
      grind [step_past moved, inv.met, inv.count]
    grind

theorem of_reachable (reached : (bootSystem nproc).Reachable b) : Invariant nproc b :=
  reached.invariant (Invariant nproc) (fun _ isStart => isStart.2 ▸ .start isStart.1)
    fun _ _ _ inv taken => inv.step taken

end Invariant

/-- No stack is shared. -/
def OwnStacks (b : Boot) : Prop :=
  ∀ p q i, (p, i) ∈ b.shared.stackOf → (q, i) ∈ b.shared.stackOf → p = q

/-- A stack can be shared as soon as there are two application processors. -/
theorem own_stacks_iff : (∀ b, (bootSystem nproc).Reachable b → OwnStacks b) ↔ nproc ≤ 2 := by
  constructor
  · intro own
    by_contra! many
    have one : 1 < nproc := Nat.lt_of_succ_lt many
    have first : (bootSystem nproc).Reachable _ := .start ⟨one, rfl⟩
    -- both are started before one of them reads the word
    have same := own _ (first.play (fun _ _ _ taken => taken) [0, 0, 0, 0, 0, 1, 1, 2, 2]) 1 2 2
    simp [System.play, Boot.next, Boot.start, step, one, many] at same
  · intro few b reached p q i
    have inv := Invariant.of_reachable reached
    grind [inv.taker p i, inv.taker q i, inv.rounds.sent p, inv.rounds.sent q, inv.rounds.bound]

/-- How far a processor has to go. -/
@[grind] def Place.rank (nproc : Nat) : Place → Nat
  | boot => 2 * nproc + 6
  | pass i => 2 * (nproc - i) + 5
  | start i => 2 * (nproc - i) + 4
  | halted => 8
  | entry => 7
  | enter => 6
  | load => 5
  | wait | store _ => 4
  | leave | setup => 3
  | scheduler => 2
  | release => 1
  | idle => 0

theorem Invariant.lower (inv : Invariant nproc b) (taken : b.next nproc who = some after) :
    ∑ p ∈ range nproc, (after.place p).rank nproc < ∑ p ∈ range nproc, (b.place p).rank nproc := by
  obtain ⟨⟨y, s'⟩, moved, rfl⟩ := Option.map_eq_some_iff.mp taken
  have inside : who < nproc := by
    grind [inv.halted who, inv.rounds.sent who, inv.rounds.bound, step_startup moved]
  have first := inv.role who true
  have more := inv.rounds.more
  have less : y.rank nproc < (b.place who).rank nproc := by
    cases there : b.place who <;> grind [Mp.step]
  refine sum_lt_sum (fun p _ => ?_) ⟨who, mem_range.mpr inside, ?_⟩
  · grind [update_apply]
  · simpa using less

/-- Where a processor spins. -/
theorem next_eq_none (stuck : b.next nproc who = none) :
    (b.place who = .boot ∨ b.place who = .scheduler) ∧ b.shared.km ≠ none ∨
      b.place who = .wait ∧ b.shared.ncpu + 1 ≠ nproc ∨
      b.place who = .halted ∧ who ∉ b.shared.startup ∨
      b.place who = .enter ∧ b.shared.procM ≠ none ∨ b.place who = .idle := by
  have stays := Option.map_eq_none_iff.mp stuck
  cases there : b.place who <;> grind [step]

/-- When nobody can go on, all are done: the owner of `proc_m` never waits, so all that were
started are counted, and then neither does the owner of `km`. -/
theorem Invariant.done (inv : Invariant nproc b) (stuck : ∀ p, b.next nproc p = none) :
    ∀ p < nproc, b.place p = .idle := by
  have waits := fun p => next_eq_none (stuck p)
  have freeProc : b.shared.procM = none := by
    by_contra taken
    obtain ⟨p, owner⟩ := Option.ne_none_iff_exists'.mp taken
    grind [(inv.procM p).mpr owner]
  have started : ∀ p ∈ b.shared.startup, (b.place p).counted = true := by
    grind [inv.role, inv.rounds.sent]
  have freeKm : b.shared.km = none := by
    by_contra taken
    obtain ⟨p, owner⟩ := Option.ne_none_iff_exists'.mp taken
    have held := (inv.km p).mpr owner
    have first := inv.role p true
    have last : b.place 0 = .wait ∧ b.shared.ncpu + 1 ≠ nproc := by
      grind
    have all : {p ∈ range nproc | (b.place p).counted} = range nproc := by
      ext p
      grind [inv.rounds.sent p]
    grind [inv.count, card_range nproc]
  have role := inv.role 0 false
  have first : b.place 0 = .idle := by
    grind [inv.km 0]
  intro p inside
  grind [inv.rounds.sent p, inv.km p]

end Crunchy.Mp
