import Libfibre.Schemes.Transition
import Mathlib.Data.Fin.Basic
import Mathlib.Data.Sum.Basic

/-! The GO idle manager (`Scheduler.h`) together with the ready queues it watches over (`BaseProcessor.h`)
    and the searches of a worker (`BaseProcessor.cc`), in the default configuration: load balancing,
    lock-free pushes, no worker poller, `isHalting` always `false`. A cluster has `n + 1` workers in a
    ring; besides them, pollers `P` call `enqueueResume`.

        incSpinning ──▶ search (spin i) ──▶ decSpinning ──▶ incWaiting ──▶ search last ──▶ block ──▶ halt
             ▲               │                                                │                     │
             │               ▼                                                ▼                     │
             │           unblockSpin ──▶ busy ◀───────────────────────── decWaiting                 │
             └──────────────────────────────────────────────────────────────────────────────────────┘

    Each section under `procLock` is one step, so that nobody is seen inside: a `tryAcquire` of it
    that fails is a choice of the interleaving. -/

namespace Libfibre.IdleManager
open Transition

/-- One queue for each of `Fred::Priority`. -/
abbrev Priority := Fin 3

def TopPriority : Priority := 0
def DefaultPriority : Priority := 1
def LowPriority : Priority := 2

/-- The order in which `dequeue` looks at the queues. -/
def priorities : List Priority := [TopPriority, DefaultPriority, LowPriority]

/-- `IdleSpinMax`: how often an idle worker searches before it sleeps. -/
def idleSpinMax : ℕ := 1024

/-- Who searches: `scheduleFull`, `yield` or `yieldGlobal`, and `scheduleIdle` in its spin loop and
    for the last time. -/
inductive Search where
  | full
  | yield (everywhere : Bool)
  | spin (i : ℕ)
  | last
  deriving DecidableEq

/-- Where a search is with one ready queue: `tryDequeue`, or `dequeue` without the probe. -/
inductive Stage (Fb : Type) where
  | probe
  | acquire
  | scan
  | release (f : Option Fb)
  deriving DecidableEq

/-- Where a worker is. -/
inductive Pc (n : ℕ) (Fb : Type) where
  | busy
  | postYield
  | incSpinning
  | search (ctx : Search) (victim : Fin (n + 1)) (stage : Stage Fb)
  | unblockSpin
  | decSpinning
  | incWaiting
  | decWaiting
  | block
  | halt
  deriving DecidableEq

/-- Where a call of `IdleManager::unblock` is. -/
inductive Unblock (n : ℕ) where
  | done
  | loop
  | tryAcquire
  | decWaiting (proc : Fin (n + 1))
  | wake (proc : Fin (n + 1))
  deriving DecidableEq

/-- Who calls `enqueueResume`. -/
abbrev Agent (n : ℕ) (P : Type) := Fin (n + 1) ⊕ P

/-- The workers' ready queues, the words of the idle manager, and where everybody is. -/
structure State (n : ℕ) (P Fb : Type) where
  queue : Fin (n + 1) → Priority → List Fb
  readyLock : Fin (n + 1) → Option (Fin (n + 1))
  spinCounter : ℕ
  waitCounter : ℕ
  waitingProcs : List (Fin (n + 1))
  haltSem : Fin (n + 1) → ℕ
  pc : Fin (n + 1) → Pc n Fb
  unblock : Agent n P → Unblock n

/-- A worker or an agent that adds a fibre takes a step. -/
inductive Action (n : ℕ) (P Fb : Type) where
  | next (w : Fin (n + 1))
  | suspend (w : Fin (n + 1))
  | yield (w : Fin (n + 1)) (everywhere : Bool)
  | postYield (w v : Fin (n + 1)) (f : Fb)
  | enqueueResume (a : Agent n P) (v : Fin (n + 1)) (f : Fb)
  | unblockNext (a : Agent n P) (contended : Bool)

variable {n : ℕ} {P Fb : Type}

/-! ### The ready queue -/

/-- `dequeueInternal`: the first fibre of the first queue that has one. -/
def dequeueInternal (queue : Priority → List Fb) : List Priority → Option Fb × (Priority → List Fb)
  | [] => (none, queue)
  | p :: ps =>
    match queue p with
    | f :: rest => (some f, Function.update queue p rest)
    | [] => dequeueInternal queue ps

/-- `probe`: some queue is not empty. -/
def probe (queue : Priority → List Fb) : Bool := priorities.any fun p => !(queue p).isEmpty

/-- `queue[f.getPriority()].push(f)`. -/
def enqueue (priority : Fb → Priority) (queue : Priority → List Fb) (f : Fb) : Priority → List Fb :=
  Function.update queue (priority f) (queue (priority f) ++ [f])

/-! ### A worker -/

/-- Where a worker goes on with the fibre it has found. -/
def found : Search → Pc n Fb
  | .full => .busy
  | .yield _ => .postYield
  | .spin _ => .unblockSpin
  | .last => .decWaiting

/-- Where a worker goes on without. -/
def notFound (w : Fin (n + 1)) : Search → Pc n Fb
  | .full => .incSpinning
  | .yield _ => .busy
  | .spin i => if i + 1 < idleSpinMax then .search (.spin (i + 1)) w .acquire else .decSpinning
  | .last => .block

/-- On to the next victim of the ring, `yield` alone excepted. -/
def advance (w : Fin (n + 1)) (ctx : Search) (v : Fin (n + 1)) : Pc n Fb :=
  if ctx = .yield false ∨ v + 1 = w then notFound w ctx else .search ctx (v + 1) .probe

variable [DecidableEq P]

/-- Worker `w` goes to another place. -/
def State.goto (s : State n P Fb) (w : Fin (n + 1)) (p : Pc n Fb) : State n P Fb :=
  { s with pc := Function.update s.pc w p }

/-- The next step of a search; a worker waits for the lock of its own queue only. -/
def searchNext (s : State n P Fb) (w : Fin (n + 1)) (ctx : Search) (v : Fin (n + 1)) :
    Stage Fb → Option (State n P Fb)
  | .probe => some (s.goto w (if probe (s.queue v) then .search ctx v .acquire else advance w ctx v))
  | .acquire =>
    match s.readyLock v with
    | none =>
      some (State.goto { s with readyLock := Function.update s.readyLock v (some w) } w
        (.search ctx v .scan))
    | some _ => if v = w then none else some (s.goto w (advance w ctx v))
  | .scan =>
    let r := dequeueInternal (s.queue v) priorities
    some (State.goto { s with queue := Function.update s.queue v r.2 } w (.search ctx v (.release r.1)))
  | .release f =>
    some (State.goto { s with readyLock := Function.update s.readyLock v none } w
      (if f.isSome then found ctx else advance w ctx v))

/-- The next step of a worker that is not running a fibre. -/
def workerNext (s : State n P Fb) (w : Fin (n + 1)) : Option (State n P Fb) :=
  match s.pc w with
  | .busy | .postYield => none
  | .incSpinning =>
    some (State.goto { s with spinCounter := s.spinCounter + 1 } w (.search (.spin 1) w .acquire))
  | .search ctx v stage => searchNext s w ctx v stage
  | .unblockSpin =>
    some (State.goto { s with
      spinCounter := s.spinCounter - 1
      unblock := if s.spinCounter - 1 = 0 then Function.update s.unblock (.inl w) .loop
        else s.unblock } w .busy)
  | .decSpinning => some (State.goto { s with spinCounter := s.spinCounter - 1 } w .incWaiting)
  | .incWaiting =>
    some (State.goto { s with waitCounter := s.waitCounter + 1 } w (.search .last w .acquire))
  | .decWaiting => some (State.goto { s with waitCounter := s.waitCounter - 1 } w .busy)
  | .block => some (State.goto { s with waitingProcs := w :: s.waitingProcs } w .halt)
  | .halt =>
    if 0 < s.haltSem w then
      some (State.goto { s with haltSem := Function.update s.haltSem w (s.haltSem w - 1) } w
        .incSpinning)
    else none

/-! ### `unblock` -/

/-- The agent goes to another place in `unblock`. -/
def State.gotoUnblock (s : State n P Fb) (a : Agent n P) (u : Unblock n) : State n P Fb :=
  { s with unblock := Function.update s.unblock a u }

/-- The next step of a call of `unblock`. -/
def unblockNext (s : State n P Fb) (a : Agent n P) (contended : Bool) : Option (State n P Fb) :=
  match s.unblock a with
  | .done => none
  | .loop => some (s.gotoUnblock a (if 0 < s.waitCounter then .tryAcquire else .done))
  | .tryAcquire =>
    if contended then some (s.gotoUnblock a .loop)
    else
      match s.waitingProcs with
      | [] => some (s.gotoUnblock a .loop)
      | v :: rest => some (State.gotoUnblock { s with waitingProcs := rest } a (.decWaiting v))
  | .decWaiting v =>
    some (State.gotoUnblock { s with waitCounter := s.waitCounter - 1 } a (.wake v))
  | .wake v =>
    some (State.gotoUnblock { s with haltSem := Function.update s.haltSem v (s.haltSem v + 1) } a .done)

/-! ### The system -/

section Code
variable (priority : Fb → Priority)

/-- `enqueueFred`: into the queue of the fibre's priority. -/
def enqueueFred (s : State n P Fb) (v : Fin (n + 1)) (f : Fb) : State n P Fb :=
  { s with queue := Function.update s.queue v (enqueue priority (s.queue v) f) }

/-- Who may call `enqueueResume`: pollers, and workers running a fibre or in `postSuspend` on their way
    to the idle loop. -/
def mayResume (s : State n P Fb) : Agent n P → Bool
  | .inl w => match s.pc w with
    | .busy | .incSpinning => true
    | _ => false
  | .inr _ => true

/-- One step. A worker that is in `unblock` does nothing else. -/
def step (s : State n P Fb) : Action n P Fb → Option (State n P Fb)
  | .next w => if s.unblock (.inl w) = .done then workerNext s w else none
  | .suspend w =>
    match s.pc w with
    | .busy => if s.unblock (.inl w) = .done then some (s.goto w (.search .full w .acquire)) else none
    | _ => none
  | .yield w everywhere =>
    match s.pc w with
    | .busy =>
      if s.unblock (.inl w) = .done then some (s.goto w (.search (.yield everywhere) w .acquire))
      else none
    | _ => none
  | .postYield w v f =>
    match s.pc w with
    | .postYield =>
      if s.unblock (.inl w) = .done then some ((enqueueFred priority s v f).goto w .busy) else none
    | _ => none
  | .enqueueResume a v f =>
    if s.unblock a = .done ∧ mayResume s a then some ((enqueueFred priority s v f).gotoUnblock a .loop)
    else none
  | .unblockNext a contended => unblockNext s a contended

/-- The workers enter `idleLoop`, with an initial fibre or without one. -/
structure Start (s : State n P Fb) : Prop where
  queue : ∀ v p, s.queue v p = []
  readyLock : ∀ v, s.readyLock v = none
  spinCounter : s.spinCounter = 0
  waitCounter : s.waitCounter = 0
  waitingProcs : s.waitingProcs = []
  haltSem : ∀ w, s.haltSem w = 0
  pc : ∀ w, s.pc w = .incSpinning ∨ s.pc w = .busy
  unblock : ∀ a, s.unblock a = .done

/-- Any number of workers and agents. -/
def system : System (State n P Fb) (Action n P Fb) where
  init := Start
  step := step priority

end Code

/-- What a step was. -/
theorem step_cases {priority : Fb → Priority} {s s' : State n P Fb} {c : Action n P Fb}
    (hs : step priority s c = some s') :
    match c with
    | .next w => s.unblock (.inl w) = .done ∧ workerNext s w = some s'
    | .suspend w => (s.unblock (.inl w) = .done ∧ s.pc w = .busy) ∧ s.goto w (.search .full w .acquire) = s'
    | .yield w everywhere =>
      (s.unblock (.inl w) = .done ∧ s.pc w = .busy) ∧
        s.goto w (.search (.yield everywhere) w .acquire) = s'
    | .postYield w v f =>
      (s.unblock (.inl w) = .done ∧ s.pc w = .postYield) ∧
        (enqueueFred priority s v f).goto w .busy = s'
    | .enqueueResume a v f =>
      (s.unblock a = .done ∧ mayResume s a) ∧ (enqueueFred priority s v f).gotoUnblock a .loop = s'
    | .unblockNext a contended => unblockNext s a contended = some s' := by
  cases c with
  | next w => exact Option.ite_none_right_eq_some.mp hs
  | suspend w | yield w everywhere | postYield w v f =>
    simp only [step] at hs
    split at hs
    · rename_i hpc
      obtain ⟨hdone, hs⟩ := Option.ite_none_right_eq_some.mp hs
      exact ⟨⟨hdone, hpc⟩, Option.some.inj hs⟩
    · cases hs
  | enqueueResume a v f =>
    obtain ⟨hmay, hs⟩ := Option.ite_none_right_eq_some.mp hs
    exact ⟨hmay, Option.some.inj hs⟩
  | unblockNext a contended => exact hs

/-! ### What is asked -/

/-- Some queue of the processor holds a fibre. -/
def Ready (s : State n P Fb) (v : Fin (n + 1)) : Prop := ∃ p, s.queue v p ≠ []

/-- All workers are halted or past the last search on their way to halt, no `unblock` is in progress
    and no wake pending, and some ready queue holds a fibre. -/
def Stranded (s : State n P Fb) : Prop :=
  (∀ w, s.pc w = .block ∨ s.pc w = .halt ∧ s.haltSem w = 0) ∧ (∀ a, s.unblock a = .done) ∧
    ∃ v, Ready s v

/-- The step that goes wrong: in its last search, a worker gives up on a ready queue that is not empty,
    as somebody holds its lock who found it empty in a last search too. -/
def givesUp (s : State n P Fb) : Action n P Fb → Bool
  | .next w =>
    match s.pc w with
    | .search .last v .acquire =>
      decide (v ≠ w) && probe (s.queue v) &&
        match s.readyLock v with
        | some holder =>
          match s.pc holder with
          | .search .last u (.release none) => decide (u = v)
          | _ => false
        | none => false
    | _ => false
  | _ => false

end Libfibre.IdleManager
