/-
Module: Crunchy.Lib.Transition
Purpose: Labelled transition systems, the states their runs reach, and the rule
  that lifts a one-step invariant to every reachable state.
Trusted boundary: none
Main exports: System, Reachable, Reachable.invariant, Reachable.play, Eventually,
  Eventually.of_measure
-/
import Mathlib.Logic.Basic
import Mathlib.Tactic.TypeStar

namespace Crunchy.Lib

/-- A labelled transition system: its start states and its steps, each step
labelled by the event that causes it. -/
structure System (State Event : Type*) where
  Start : State → Prop
  Step : State → Event → State → Prop

namespace System

variable {State Event : Type*} {system : System State Event}

/-- The same system in which an event is taken only where `guard` allows it.
The guard sees the state before the step and the event, never the outcome. -/
def restrict (system : System State Event) (guard : State → Event → Prop) :
    System State Event where
  Start := system.Start
  Step before event after := guard before event ∧ system.Step before event after

/-- The runs that stay in states with the property `stays`. -/
def within (system : System State Event) (stays : State → Prop) : System State Event where
  Start state := system.Start state ∧ stays state
  Step before event after := system.Step before event after ∧ stays after

/-- The states that some run of the system reaches. -/
inductive Reachable (system : System State Event) : State → Prop where
  | start {state : State} (initial : system.Start state) : Reachable system state
  | step {before after : State} {event : Event} (reached : Reachable system before)
      (taken : system.Step before event after) : Reachable system after

/-- Play a script of events; an event that cannot happen is passed over. -/
def play (next : State → Event → Option State) (state : State) (script : List Event) : State :=
  script.foldl (fun state event => (next state event).getD state) state

namespace Reachable

/-- A property of every start state that each step preserves holds in every
reachable state. -/
theorem invariant {state : State} (reached : system.Reachable state)
    (holds : State → Prop) (initial : ∀ state, system.Start state → holds state)
    (preserved : ∀ before event after, holds before →
      system.Step before event after → holds after) : holds state := by
  induction reached with
  | start isStart => exact initial _ isStart
  | step _ taken ih =>
    exact preserved _ _ _ ih taken

/-- The runs of a system are runs of one that allows more. -/
theorem mono {wider : System State Event} {state : State} (reached : system.Reachable state)
    (starts : ∀ state, system.Start state → wider.Start state)
    (steps : ∀ before event after, system.Step before event after →
      wider.Step before event after) : wider.Reachable state :=
  reached.invariant wider.Reachable (fun _ isStart => .start (starts _ isStart))
    fun _ _ _ reached taken => .step reached (steps _ _ _ taken)

/-- Guarded runs are runs. -/
theorem of_restrict {guard : State → Event → Prop} {state : State}
    (reached : (system.restrict guard).Reachable state) : system.Reachable state :=
  reached.mono (fun _ isStart => isStart) fun _ _ _ taken => taken.2

/-- Two guards, one after the other. -/
theorem restrict_restrict {one two : State → Event → Prop} {state : State}
    (reached : (system.restrict fun state event => one state event ∧ two state event).Reachable
      state) : ((system.restrict one).restrict two).Reachable state :=
  reached.mono (fun _ isStart => isStart) fun _ _ _ taken => ⟨taken.1.2, taken.1.1, taken.2⟩

/-- Playing a script stays among the reachable states. -/
theorem play {next : State → Event → Option State} {state : State}
    (reached : system.Reachable state)
    (sound : ∀ before event after, next before event = some after →
      system.Step before event after) (script : List Event) :
    system.Reachable (System.play next state script) := by
  induction script generalizing state with
  | nil => exact reached
  | cons event script ih =>
    apply ih
    show system.Reachable ((next state event).getD state)
    cases taken : next state event with
    | none => exact reached
    | some after => exact .step reached (sound _ _ _ taken)

/-- A run that stays in a property ends in it. -/
theorem stays {stays : State → Prop} {state : State}
    (reached : (system.within stays).Reachable state) : stays state := by
  cases reached with
  | start isStart => exact isStart.2
  | step _ taken => exact taken.2

end Reachable

/-- Whatever steps are taken, a state with the property `goal` is reached: until
then there is always a step, and every step leads on towards one. -/
inductive Eventually (system : System State Event) (goal : State → Prop) : State → Prop where
  | now {state : State} (there : goal state) : Eventually system goal state
  | later {state : State} (possible : ∃ event after, system.Step state event after)
      (all : ∀ event after, system.Step state event after → Eventually system goal after) :
      Eventually system goal state

/-- Progress under an invariant, with a measure that every step makes smaller. -/
theorem Eventually.of_measure {goal : State → Prop} (holds : State → Prop)
    (measure : State → Nat)
    (progress : ∀ state, holds state → ¬goal state → ∃ event after, system.Step state event after)
    (preserved : ∀ before event after, holds before → ¬goal before →
      system.Step before event after → holds after ∧ measure after < measure before)
    {state : State} (initial : holds state) : system.Eventually goal state := by
  generalize bound : measure state = n
  induction n using Nat.strongRecOn generalizing state with
  | ind n ih =>
    by_cases there : goal state
    · exact .now there
    · apply Eventually.later (progress state initial there)
      intro event after taken
      obtain ⟨kept, smaller⟩ := preserved state event after initial there taken
      exact ih (measure after) (bound ▸ smaller) kept rfl

/-- A weaker goal is reached too. -/
theorem Eventually.mono {goal weaker : State → Prop} {state : State}
    (reaches : system.Eventually goal state) (weaken : ∀ state, goal state → weaker state) :
    system.Eventually weaker state := by
  induction reaches with
  | now there => exact .now (weaken _ there)
  | later possible _ ih => exact .later possible ih

/-- If no step leaves the goal, it is reached from every state of a run. -/
theorem Eventually.of_reachable {goal : State → Prop} (final : ∀ state event after, goal state →
      ¬system.Step state event after)
    (starts : ∀ state, system.Start state → system.Eventually goal state) {state : State}
    (reached : system.Reachable state) : system.Eventually goal state := by
  refine reached.invariant (system.Eventually goal) starts ?_
  intro before event after reaches taken
  cases reaches with
  | now there => exact absurd taken (final _ _ _ there)
  | later _ all => exact all event after taken

/-- A step from a state to itself can be taken for ever. -/
theorem Eventually.not_loop {goal : State → Prop} {state : State} {event : Event}
    (loop : system.Step state event state) (notThere : ¬goal state) :
    ¬system.Eventually goal state := by
  intro reaches
  induction reaches with
  | now there => exact notThere there
  | later _ _ ih => exact ih event _ loop loop notThere

end System

end Crunchy.Lib
