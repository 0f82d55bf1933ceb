import Libfibre.Schemes.Transition
import Libfibre.Runtime.BlockingQueue
import Mathlib.Tactic.Linarith

/-! `BlockingQueue` together with `TimerQueue` (`BlockingSync.h`). A call of `block` puts a node into the
    blocking queue under the caller's lock, another one into the timer queue under its lock, and
    suspends; `unblock` and `checkExpiry` race for the fibre's one word `resumeInfo`. The sections
    under the two locks, each `raceResume` and each `resume` inside them, the look at `expired`
    without the lock and each resumption are separate steps.

        idle ──▶ enqueue ──▶ asleep ──▶ erase ──▶ returned true         (the queue has won)
          │                    │
          ▼                    └─────▶ remove ──▶ returned false        (the timer has won)
        refused

    `C` are the calls ever made, each by the fibre `fib`. A lock that is held across steps is
    represented by what its holder is about: `scan` for the caller's lock, `run` for the timer
    queue's. -/

namespace Libfibre.TimerQueue
open Transition

/-- How `block` is called: with its `wait` flag, or with a timeout and the time it is compared to. -/
inductive Args where
  | wait (wait : Bool)
  | timeout (deadline now : ℕ)

/-- `block` calls `blockInternal`. -/
def Args.blocks : Args → Bool
  | .wait w => w
  | .timeout deadline now => decide (now < deadline)

/-- The pointer in `resumeInfo`: the blocking queue's or the timer queue's. -/
inductive Winner where
  | queue
  | timer
  deriving DecidableEq

/-- Where a call of `block` is. `erase` is first the look without the lock, then the section. -/
inductive Pc where
  | idle
  | refused
  | enqueue (deadline : ℕ)
  | asleep (timed : Bool)
  | erase (locking : Bool)
  | remove
  | returned (result : Bool)
  deriving DecidableEq

/-- `blockHelper`: suspend at once, or go through the timer queue. -/
def Args.entry : Args → Pc
  | .wait _ => .asleep false
  | .timeout deadline _ => .enqueue deadline

/-- An `unblock` in progress under the caller's lock. -/
inductive Scan (C : Type) where
  | scanning (enqueue : Bool) (rest : List C)
  | removing (enqueue : Bool) (node : C)
  | resuming (node : C)
  deriving DecidableEq

/-- A `checkExpiry` in progress under the timer queue's lock, with the time it goes by. -/
inductive Expiry (C : Type) where
  | scanning (now : ℕ)
  | won (now : ℕ) (node : C)
  | lost (now : ℕ) (node : C)
  | erasing (now : ℕ) (node : C)
  deriving DecidableEq

structure State (C F : Type) where
  bq : List C
  scan : Option (Scan C)
  /-- Fibres that an `unblock<false>` has returned and its caller is yet to resume. -/
  handed : List C
  tq : List (ℕ × C)
  run : Option (Expiry C)
  /-- What `Runtime::Timer::newTimeout` was last called with. -/
  newTimeout : Option ℕ
  expired : C → Bool
  resumeInfo : F → Option Winner
  /-- `resume` has been called for the fibre and it has not run since. -/
  resumed : F → Bool
  /-- The call a fibre is in. -/
  current : F → Option C
  pc : C → Pc
  /-- What the calls of `unblock` have returned. -/
  returned : List (Option C)
  /-- The calls whose race `checkExpiry` has won. -/
  timerWon : C → Bool

inductive Action (C : Type) where
  | block (n : C) (args : Args)
  | next (n : C)
  | resumption (n : C)
  | unblock (enqueue : Bool)
  | unblockNext
  | resume (n : C)
  | checkExpiry (now : ℕ)
  | expiryNext

variable {C F : Type} [DecidableEq C] [DecidableEq F]

def State.goto (s : State C F) (n : C) (p : Pc) : State C F :=
  { s with pc := Function.update s.pc n p }

/-- `multimap::insert`: behind the entries with the same key. -/
def insert (deadline : ℕ) (n : C) : List (ℕ × C) → List (ℕ × C)
  | [] => [(deadline, n)]
  | e :: tq => if e.1 ≤ deadline then e :: insert deadline n tq else (deadline, n) :: e :: tq

/-- `multimap::erase` of the entry of a call. -/
def eraseEntry (n : C) (tq : List (ℕ × C)) : List (ℕ × C) := tq.filter fun e => e.2 ≠ n

section Code
variable (fib : C → F)

/-- `block` returns. -/
def leave (s : State C F) (n : C) (result : Bool) : State C F :=
  { s.goto n (.returned result) with current := Function.update s.current (fib n) none }

/-- `blockInternal` compares the winner with its own queue. -/
def finish (s : State C F) (n : C) : State C F :=
  if s.resumeInfo (fib n) = some .queue then leave fib s n true else s.goto n .remove

def resume (s : State C F) (n : C) : State C F :=
  { s with resumed := Function.update s.resumed (fib n) true }

/-- The section in which `block` is called. -/
def block (s : State C F) (n : C) (args : Args) : State C F :=
  if args.blocks then
    State.goto { s with resumeInfo := Function.update s.resumeInfo (fib n) none
                        bq := s.bq ++ [n]
                        current := Function.update s.current (fib n) (some n) } n args.entry
  else s.goto n .refused

/-- The section of `TimerQueue::enqueue`; then the fibre suspends. -/
def enqueue (s : State C F) (n : C) (deadline : ℕ) : State C F :=
  State.goto { s with
    tq := insert deadline n s.tq
    expired := Function.update s.expired n false
    newTimeout := if (insert deadline n s.tq).head? = some (deadline, n) then some deadline
      else s.newTimeout } n (.asleep true)

/-- The section of `TimerQueue::erase`. -/
def eraseSection (s : State C F) (n : C) : State C F :=
  if s.expired n then s else { s with tq := eraseEntry n s.tq }

/-- The next step of a call that is not suspended. -/
def next (s : State C F) (n : C) : Option (State C F) :=
  match s.pc n with
  | .enqueue deadline => if s.run = none then some (enqueue s n deadline) else none
  | .erase false => some (if s.expired n then finish fib s n else s.goto n (.erase true))
  | .erase true => if s.run = none then some (finish fib (eraseSection s n) n) else none
  | .remove => if s.scan = none then some (leave fib { s with bq := s.bq.erase n } n false) else none
  | _ => none

/-- A resumed fibre runs again; `blockTimeout` looks at the winner first. -/
def resumption (s : State C F) (n : C) (timed : Bool) : State C F :=
  let s := { s with resumed := Function.update s.resumed (fib n) false }
  if timed then
    if s.resumeInfo (fib n) = some .timer then s.goto n .remove else s.goto n (.erase false)
  else finish fib s n

/-- The next step of the `unblock` in progress. -/
def unblockNext (s : State C F) : Scan C → State C F
  | .scanning _ [] => { s with scan := none, returned := s.returned ++ [none] }
  | .scanning enqueue (n :: rest) =>
    if s.resumeInfo (fib n) = none then
      { s with resumeInfo := Function.update s.resumeInfo (fib n) (some .queue)
               scan := some (.removing enqueue n) }
    else { s with scan := some (.scanning enqueue rest) }
  | .removing true n => { s with bq := s.bq.erase n, scan := some (.resuming n) }
  | .removing false n =>
    { s with bq := s.bq.erase n
             scan := none
             returned := s.returned ++ [some n]
             handed := n :: s.handed }
  | .resuming n => { resume fib s n with scan := none, returned := s.returned ++ [some n] }

/-- The next step of the `checkExpiry` in progress. -/
def expiryNext (s : State C F) : Expiry C → State C F
  | .scanning now =>
    match s.tq with
    | [] => { s with run := none }
    | (deadline, n) :: _ =>
      if now < deadline then { s with run := none, newTimeout := some deadline }
      else if s.resumeInfo (fib n) = none then
        { s with resumeInfo := Function.update s.resumeInfo (fib n) (some .timer)
                 timerWon := Function.update s.timerWon n true
                 run := some (.won now n) }
      else { s with run := some (.lost now n) }
  | .won now n => { resume fib s n with run := some (.erasing now n) }
  | .lost now n =>
    { s with expired := Function.update s.expired n true, run := some (.erasing now n) }
  | .erasing now _ => { s with tq := s.tq.tail, run := some (.scanning now) }

/-- One step. A fibre is in one call at a time. -/
def step (s : State C F) : Action C → Option (State C F)
  | .block n args =>
    if s.pc n = .idle ∧ s.current (fib n) = none ∧ s.scan = none then some (block fib s n args)
    else none
  | .next n => next fib s n
  | .resumption n =>
    match s.pc n with
    | .asleep timed => if s.resumed (fib n) then some (resumption fib s n timed) else none
    | _ => none
  | .unblock enqueue =>
    if s.scan = none then some { s with scan := some (.scanning enqueue s.bq) } else none
  | .unblockNext => s.scan.map (unblockNext fib s)
  | .resume n =>
    if n ∈ s.handed then some { resume fib s n with handed := s.handed.erase n } else none
  | .checkExpiry now =>
    if s.run = none then some { s with run := some (.scanning now) } else none
  | .expiryNext => s.run.map (expiryNext fib s)

def start : State C F :=
  { bq := [], scan := none, handed := [], tq := [], run := none, newTimeout := none
    expired := fun _ => false, resumeInfo := fun _ => none, resumed := fun _ => false
    current := fun _ => none, pc := fun _ => .idle, returned := [], timerWon := fun _ => false }

def system : System (State C F) (Action C) where
  init s := s = start
  step := step fib

variable {fib}

/-- What the next step of a call can be. -/
theorem next_cases {s s' : State C F} {n : C} (h : next fib s n = some s') :
    (∃ deadline, s.pc n = .enqueue deadline ∧ s.run = none ∧ s' = enqueue s n deadline) ∨
    (s.pc n = .erase false ∧ s' = if s.expired n then finish fib s n else s.goto n (.erase true)) ∨
    (s.pc n = .erase true ∧ s.run = none ∧ s' = finish fib (eraseSection s n) n) ∨
    (s.pc n = .remove ∧ s.scan = none ∧ s' = leave fib { s with bq := s.bq.erase n } n false) := by
  rw [next] at h
  split at h
  · rename_i deadline hpc
    split_ifs at h with hrun
    exact Or.inl ⟨deadline, hpc, hrun, (Option.some.inj h).symm⟩
  · rename_i hpc
    exact Or.inr (Or.inl ⟨hpc, (Option.some.inj h).symm⟩)
  · rename_i hpc
    split_ifs at h with hrun
    exact Or.inr (Or.inr (Or.inl ⟨hpc, hrun, (Option.some.inj h).symm⟩))
  · rename_i hpc
    split_ifs at h with hscan
    exact Or.inr (Or.inr (Or.inr ⟨hpc, hscan, (Option.some.inj h).symm⟩))
  · cases h

end Code

end Libfibre.TimerQueue
