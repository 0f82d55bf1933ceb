import Libfibre.Schemes.Transition
import Libfibre.Schemes.Tally

/-! `FastBarrier` (`BlockingSync.h`). A fibre pushes itself and then counts itself; every `target`-th to
    count takes the lock and pops `target` fibres, which need not be the ones that have counted, and
    need not contain itself. The push, the two updates of the counter, each pop under the lock, each
    `raceResume`, `resume` and `suspend` are one step.

        out ──▶ pushing ──▶ counting ──▶ suspending ──▶ parked ──▶ ready ──▶ out
                               │             ▲ │ resumed early
                               ▼             │ └──▶ out
                  reducing ──▶ locking ──▶ popping ⇄ (racing) ⇄ resuming ──▶ unlocking ──▶ out

    The history keeps the arrivals in the order of their pushes, what each lock section has popped and
    what the call of each arrival has returned. -/

namespace Libfibre.FastBarrier
open Transition Tally

/-- Where a fibre is; `i` counts the rounds of the loop, `park` is the local of that name. -/
inductive Pc (F : Type) where
  | out
  | pushing                                          -- past `prepareRace`
  | counting
  | reducing
  | locking
  | popping (i : ℕ) (park : Bool)
  | racing (i : ℕ) (next : F)
  | resuming (i : ℕ) (park : Bool) (next : F)
  | unlocking (park : Bool)
  | suspending
  | parked
  | ready
  deriving DecidableEq

structure State (F : Type) where
  counter : ℕ
  queue : List F
  lock : Option F
  resumedEarly : F → Bool
  resumeInfo : F → Option F
  pc : F → Pc F
  arrivals : List F                -- history: pushes
  groups : List (List F)           -- history: pops, by lock sections that are over
  group : List F                   -- history: pops of the lock section in progress
  arrival : F → ℕ                  -- history: the place of a fibre's latest push
  result : ℕ → Option Bool         -- history: what the call of an arrival has returned

inductive Action (F : Type) where
  | wait (f : F)
  | push (f : F)
  | count (f : F)
  | reduce (f : F)
  | lock (f : F)
  | pop (f : F) (seen : Bool)      -- `seen`: the queue shows its first element
  | raceResume (f : F)
  | resume (f : F)
  | unlock (f : F)
  | suspend (f : F)
  | run (f : F)

variable {F : Type} [DecidableEq F]

def State.goto (s : State F) (f : F) (p : Pc F) : State F :=
  { s with pc := Function.update s.pc f p }

/-- The call returns `r`. -/
def State.returns (s : State F) (f : F) (r : Bool) : State F :=
  State.goto { s with result := Function.update s.result (s.arrival f) (some r) } f .out

section Code
variable (target : ℕ)

/-- Where the loop goes on after round `i`. -/
def next (i : ℕ) (park : Bool) : Pc F :=
  if i + 1 < target then .popping (i + 1) park else .unlocking park

/-- `pop`, and what is done with the fibre that it returns. -/
def pop (s : State F) (f : F) (i : ℕ) (park : Bool) : State F :=
  match s.queue with
  | [] => s
  | g :: rest =>
    State.goto { s with queue := rest, group := s.group ++ [g] } f
      (if g = f then next target i false
       else if i = target - 1 ∧ park then .racing i g
       else .resuming i park g)

/-- `resume`: a fibre that is parked becomes ready, one that runs skips its next suspension. -/
def State.resume (s : State F) (g : F) : Option (State F) :=
  if s.pc g = .parked then some (s.goto g .ready)
  else if s.resumedEarly g then none
  else some { s with resumedEarly := Function.update s.resumedEarly g true }

def step (s : State F) : Action F → Option (State F)
  | .wait f =>
    if s.pc f = .out then
      some (State.goto { s with resumeInfo := Function.update s.resumeInfo f none } f .pushing)
    else none
  | .push f =>
    if s.pc f = .pushing then
      some (State.goto { s with
        queue := s.queue ++ [f]
        arrivals := s.arrivals ++ [f]
        arrival := Function.update s.arrival f s.arrivals.length } f .counting)
    else none
  | .count f =>
    if s.pc f = .counting then
      some (State.goto { s with counter := s.counter + 1 } f
        (if (s.counter + 1) % target ≠ 0 then .suspending else .reducing))
    else none
  | .reduce f =>
    if s.pc f = .reducing then
      some (State.goto { s with counter := s.counter - target } f .locking)
    else none
  | .lock f =>
    if s.pc f = .locking ∧ s.lock = none then
      some (State.goto { s with lock := some f } f (.popping 0 true))
    else none
  | .pop f seen =>
    match s.pc f with
    | .popping i park => some (if seen then pop target s f i park else s)
    | _ => none
  | .raceResume f =>
    match s.pc f with
    | .racing i g =>
      some (State.goto { s with
        resumeInfo := if s.resumeInfo g = none then Function.update s.resumeInfo g (some f)
          else s.resumeInfo } f (.resuming i true g))
    | _ => none
  | .resume f =>
    match s.pc f with
    | .resuming i park g => (s.resume g).map fun s' => s'.goto f (next target i park)
    | _ => none
  | .unlock f =>
    match s.pc f with
    | .unlocking park =>
      let s' : State F := { s with lock := none, groups := s.groups ++ [s.group], group := [] }
      some (if park then s'.goto f .suspending else s'.returns f true)
    | _ => none
  | .suspend f =>
    if s.pc f = .suspending then
      if s.resumedEarly f then
        some (State.returns { s with resumedEarly := Function.update s.resumedEarly f false } f
          (s.resumeInfo f).isSome)
      else some (s.goto f .parked)
    else none
  | .run f => if s.pc f = .ready then some (s.returns f (s.resumeInfo f).isSome) else none

/-- What a step was. -/
theorem step_cases {target : ℕ} {s s' : State F} {a : Action F} (hs : step target s a = some s') :
    match a with
    | .wait f => s.pc f = .out ∧
      State.goto { s with resumeInfo := Function.update s.resumeInfo f none } f .pushing = s'
    | .push f => s.pc f = .pushing ∧ State.goto { s with
        queue := s.queue ++ [f]
        arrivals := s.arrivals ++ [f]
        arrival := Function.update s.arrival f s.arrivals.length } f .counting = s'
    | .count f => s.pc f = .counting ∧ State.goto { s with counter := s.counter + 1 } f
        (if (s.counter + 1) % target ≠ 0 then .suspending else .reducing) = s'
    | .reduce f => s.pc f = .reducing ∧
      State.goto { s with counter := s.counter - target } f .locking = s'
    | .lock f => (s.pc f = .locking ∧ s.lock = none) ∧
      State.goto { s with lock := some f } f (.popping 0 true) = s'
    | .pop f seen => ∃ i park, s.pc f = .popping i park ∧
      (if seen then pop target s f i park else s) = s'
    | .raceResume f => ∃ i g, s.pc f = .racing i g ∧ State.goto { s with
        resumeInfo := if s.resumeInfo g = none then Function.update s.resumeInfo g (some f)
          else s.resumeInfo } f (.resuming i true g) = s'
    | .resume f => ∃ i park g, s.pc f = .resuming i park g ∧
      ∃ t, s.resume g = some t ∧ t.goto f (next target i park) = s'
    | .unlock f => ∃ park, s.pc f = .unlocking park ∧
      (if park then
        State.goto { s with lock := none, groups := s.groups ++ [s.group], group := [] } f .suspending
      else State.returns { s with lock := none, groups := s.groups ++ [s.group], group := [] } f true) = s'
    | .suspend f => s.pc f = .suspending ∧
      (if s.resumedEarly f then
        State.returns { s with resumedEarly := Function.update s.resumedEarly f false } f
          (s.resumeInfo f).isSome
      else s.goto f .parked) = s'
    | .run f => s.pc f = .ready ∧ s.returns f (s.resumeInfo f).isSome = s' := by
  cases a with
  | wait f | push f | count f | reduce f | lock f | run f =>
    exact (Option.ite_none_right_eq_some.mp hs).imp_right Option.some.inj
  | suspend f =>
    obtain ⟨hpc, hs⟩ := Option.ite_none_right_eq_some.mp hs
    refine ⟨hpc, ?_⟩
    split_ifs at hs ⊢
    · exact Option.some.inj hs
    · exact Option.some.inj hs
  | pop f seen =>
    simp only [step] at hs
    split at hs
    · rename_i i park hpc
      exact ⟨i, park, hpc, Option.some.inj hs⟩
    · cases hs
  | raceResume f =>
    simp only [step] at hs
    split at hs
    · rename_i i g hpc
      exact ⟨i, g, hpc, Option.some.inj hs⟩
    · cases hs
  | resume f =>
    simp only [step] at hs
    split at hs
    · rename_i i park g hpc
      exact ⟨i, park, g, hpc, Option.map_eq_some_iff.mp hs⟩
    · cases hs
  | unlock f =>
    simp only [step] at hs
    split at hs
    · rename_i park hpc
      exact ⟨park, hpc, Option.some.inj hs⟩
    · cases hs

end Code

def State.init : State F where
  counter := 0
  queue := []
  lock := none
  resumedEarly _ := false
  resumeInfo _ := none
  pc _ := .out
  arrivals := []
  groups := []
  group := []
  arrival _ := 0
  result _ := none

def system (F : Type) [DecidableEq F] (target : ℕ) : System (State F) (Action F) :=
  ⟨fun s => s = .init, step target⟩

end Libfibre.FastBarrier
