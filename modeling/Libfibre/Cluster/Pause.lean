import Mathlib.Data.List.Rotate
import Libfibre.Schemes.Transition
import Libfibre.Schemes.Tally

/-! `pause`, `resume` and `pauseOperation` (`Cluster.cc`). The caller creates one fibre for every other
    worker of the ring, but affinity binds none of them: `searchSteal` lets any worker run any of them.
    `ringLock` is held from `pause` to `resume`; both semaphores block the worker, not its fibre.

        caller:        out ─▶ creating ─▶ confirming ─▶ paused ─▶ resuming ─▶ deleting ─▶ out
                                              ▲ V                    │ V
        pause fibre:   absent ─▶ ready ─▶ starting ─▶ waiting ───────┴▶ leaving ─▶ done ─▶ absent

    The caller runs to the end of `pause` without a suspension; it may be suspended while the world is
    stopped and in the joins of `resume`, and may then go on at any worker. -/

namespace Libfibre.StopTheWorld
open Transition Tally

/-- Where a pause fibre is; it is named after the worker that it was created for. -/
inductive Fib where
  | absent
  | ready                          -- in some ready queue
  | running
  | done
  deriving DecidableEq

/-- Where a fibre is in `pauseOperation`. -/
inductive Op where
  | starting
  | waiting                        -- past `pauseConfirmSem.V`
  | leaving                        -- past `pauseSem.P`
  deriving DecidableEq

/-- What a worker executes. -/
inductive Work (W : Type) where
  | other                          -- any other fibre, or the idle loop
  | acquiring                      -- a fibre that waits for `ringLock`: `pause` or `placement`
  | caller
  | pause (f : W) (op : Op)
  deriving DecidableEq

/-- Where the caller is; `p` counts the rounds of the loops. -/
inductive Phase (W : Type) where
  | out
  | creating (todo : List W)
  | confirming (p : ℕ)
  | paused
  | resuming (p : ℕ)
  | deleting (todo : List W)
  deriving DecidableEq

structure State (W : Type) where
  ring : List W                    -- from `placeProc`
  pauseFibres : List W
  pauseSem : ℕ
  pauseConfirmSem : ℕ
  phase : Phase W
  home : Option W                  -- the worker that `pause` was called on
  suspended : Bool                 -- the caller is at no worker
  work : W → Work W
  fib : W → Fib

inductive Action (W : Type) where
  | call (w : W)                   -- `pause` or `placement`
  | place (w : W)                  -- `placement`, `ringLock` being free
  | acquire (w : W)
  | create (w : W)
  | confirmP (w : W)
  | resume (w : W)
  | resumeV (w : W)
  | delete (w : W)
  | suspend (w : W)
  | continue (w : W)
  | schedule (w f : W)             -- from the worker's own queue, borrowed or stolen
  | confirmV (w : W)
  | pauseP (w : W)
  | finish (w : W)

variable {W : Type} [DecidableEq W]

def State.goto (s : State W) (w : W) (k : Work W) : State W :=
  { s with work := Function.update s.work w k }

def State.setFib (s : State W) (f : W) (p : Fib) : State W :=
  { s with fib := Function.update s.fib f p }

/-- One round of the loop of `pause` at worker `w`, or its end. -/
def create (s : State W) (w : W) : List W → State W
  | [] => { s with phase := .confirming 1 }
  | proc :: todo =>
    if proc = w then { s with phase := .creating todo }
    else State.setFib { s with pauseFibres := s.pauseFibres ++ [proc], phase := .creating todo } proc
      .ready

def step (s : State W) : Action W → Option (State W)
  | .call w => if s.work w = .other then some (s.goto w .acquiring) else none
  | .place w =>
    if s.work w = .acquiring ∧ s.phase = .out then
      some (State.goto { s with ring := s.ring.rotate 1 } w .other)
    else none
  | .acquire w =>
    if s.work w = .acquiring ∧ s.phase = .out then
      some (State.goto { s with phase := .creating s.ring, home := some w } w .caller)
    else none
  | .create w =>
    match s.work w, s.phase with
    | .caller, .creating todo => some (create s w todo)
    | _, _ => none
  | .confirmP w =>
    match s.work w, s.phase with
    | .caller, .confirming p =>
      if p < s.ring.length then
        if 0 < s.pauseConfirmSem then
          some { s with pauseConfirmSem := s.pauseConfirmSem - 1, phase := .confirming (p + 1) }
        else none
      else some { s with phase := .paused }
    | _, _ => none
  | .resume w =>
    if s.work w = .caller ∧ s.phase = .paused then some { s with phase := .resuming 1 } else none
  | .resumeV w =>
    match s.work w, s.phase with
    | .caller, .resuming p =>
      if p < s.ring.length then
        some { s with pauseSem := s.pauseSem + 1, phase := .resuming (p + 1) }
      else some { s with phase := .deleting s.pauseFibres }
    | _, _ => none
  | .delete w =>
    match s.work w, s.phase with
    | .caller, .deleting [] =>
      some (State.goto { s with pauseFibres := [], phase := .out, home := none } w .other)
    | .caller, .deleting (f :: todo) =>
      if s.fib f = .done then some (State.setFib { s with phase := .deleting todo } f .absent)
      else none
    | _, _ => none
  | .suspend w =>
    match s.work w, s.phase with
    | .caller, .paused | .caller, .deleting _ => some (State.goto { s with suspended := true } w .other)
    | _, _ => none
  | .continue w =>
    if s.work w = .other ∧ s.suspended = true then
      some (State.goto { s with suspended := false } w .caller)
    else none
  | .schedule w f =>
    if s.work w = .other ∧ s.fib f = .ready then
      some ((s.goto w (.pause f .starting)).setFib f .running)
    else none
  | .confirmV w =>
    match s.work w with
    | .pause f .starting =>
      some (State.goto { s with pauseConfirmSem := s.pauseConfirmSem + 1 } w (.pause f .waiting))
    | _ => none
  | .pauseP w =>
    match s.work w with
    | .pause f .waiting =>
      if 0 < s.pauseSem then
        some (State.goto { s with pauseSem := s.pauseSem - 1 } w (.pause f .leaving))
      else none
    | _ => none
  | .finish w =>
    match s.work w with
    | .pause f .leaving => some ((s.goto w .other).setFib f .done)
    | _ => none

/-- The cluster before any `pause`. -/
def State.init (ring : List W) : State W where
  ring := ring
  pauseFibres := []
  pauseSem := 0
  pauseConfirmSem := 0
  phase := .out
  home := none
  suspended := false
  work _ := .other
  fib _ := .absent

/-- The cluster whose workers are `W`, each once in the ring. -/
def system (W : Type) [DecidableEq W] : System (State W) (Action W) :=
  ⟨fun s => ∃ ring : List W, ring.Nodup ∧ (∀ w, w ∈ ring) ∧ s = .init ring, step⟩

end Libfibre.StopTheWorld
