import Libfibre.Runtime.Fred

/-! The scheduler (`Fred.cc`, `BaseProcessor.cc`): workers that switch between fibres, their ready
    queues, work stealing and migration, and the queues that link blocked fibres by the very
    `FredReadyLink` the ready queues use: `LimitedSemaphore0`, `FastBarrier` (`BlockingSync.h`) and
    `ConditionalNemesisQueue`.

        exec f ──▶ search f ──▶ chosen f g ──▶ post f g ──▶ exec g
                                        stack switch   │ callback: `f` is enqueued, parks or is gone
                                                       ▼

    Each push and pop of a queue, each atomic operation on `runState` and `resumeInfo`, each stack
    switch and each callback after one is a step of its own. `W` are the workers, `X` the other threads
    that resume fibres (the pollers); a thread in the middle of an enqueue does nothing else. -/

namespace Libfibre.Scheduler
open Transition
open Fred (Parked Running ResumedEarly fetchAdd fetchSub)

/-! ### State -/

/-- The idle fibre of a worker, or any other fibre. -/
inductive Fibre (W G : Type) where
  | idle (w : W)
  | user (g : G)
  deriving DecidableEq

/-- `Fred::SwitchCode`. -/
inductive SwitchCode where
  | Idle
  | Yield
  | Resume
  | Suspend
  | Terminate
  deriving DecidableEq

/-- `Fred::Priority`. -/
inductive Priority where
  | TopPriority
  | DefaultPriority
  | LowPriority
  deriving DecidableEq

/-- A queue of blocked fibres. -/
inductive Kind where
  | semaphore0
  | barrier (target : ℕ)
  | conditional
  deriving DecidableEq

/-- How a fibre suspends: after `prepareRace` alone, or with its link in a queue; `timed`: with an entry
    in the timer queue as well. -/
inductive How (Q : Type) where
  | race
  | link (q : Q) (timed : Bool)
  deriving DecidableEq

/-- The wake-up of a suspension; `popped`: it belongs to who took the link out of its queue. -/
inductive Wake where
  | closed
  | opened
  | won (popped : Bool)
  | used (popped : Bool)     -- `resume` has executed
  deriving DecidableEq

/-- What a fibre is in the middle of. -/
inductive Loc (Q : Type) where
  | free
  | linked (q : Q) (timed : Bool)             -- its link is in `q`: before the test that follows
  | notifying (q : Q) (n : ℕ) (park : Bool)   -- in `FastBarrier::wait`, with `n` fibres to pop
  | suspending (how : How Q)
  | woken (how : How Q)                       -- before the return of `suspend`
  | removing (q : Q)                          -- before `queue.remove`
  deriving DecidableEq

/-- Before `start`, up to `terminate`, and after it. -/
inductive Life where
  | fresh
  | started
  | destroyed
  deriving DecidableEq

/-- What the scheduler knows of a fibre. -/
structure FredState (W Q : Type) where
  /-- `stackPointer` holds the context of the fibre. -/
  saved : Bool
  processor : W
  priority : Priority
  affinity : Bool
  runState : ℕ
  wake : Wake
  loc : Loc Q
  life : Life

/-- What a worker looks for another fibre for. -/
inductive Goal where
  | idle
  | yield
  | yieldGlobal
  | migrate       -- its `yieldGlobal`
  | resume        -- its `scheduleFull`
  | suspend
  | terminate
  deriving DecidableEq

/-- The `SwitchCode` that a switch is made with. -/
def Goal.code : Goal → SwitchCode
  | .idle => .Idle
  | .yield | .yieldGlobal | .migrate => .Yield
  | .resume => .Resume
  | .suspend => .Suspend
  | .terminate => .Terminate

/-- Where a worker is. -/
inductive Pc (W G : Type) where
  | exec (f : Fibre W G)
  | search (f : Fibre W G) (goal : Goal) (steal : Bool)
  | chosen (f : Fibre W G) (code : SwitchCode) (nextFred : Fibre W G)
  | post (prevFred : Fibre W G) (code : SwitchCode) (f : Fibre W G)
  deriving DecidableEq

/-- Workers `W`, other threads `X`, fibres `G` and blocking queues `Q`. -/
structure State (W X G Q : Type) where
  pc : W → Pc W G
  /-- The fibre that a thread is about to enqueue. -/
  held : W ⊕ X → Option (Fibre W G)
  readyQueue : W → Priority → List (Fibre W G)
  queue : Q → List (Fibre W G)
  /-- The counters of the barriers. -/
  counter : Q → ℕ
  fred : Fibre W G → FredState W Q

/-- What stays: the scheduler of each worker, the kind of each queue. -/
structure Config (W Q S : Type) where
  scheduler : W → S
  kind : Q → Kind

/-- What a thread does next; the choices that the code leaves open are in the arguments. -/
inductive Action (W X G Q : Type) where
  | start (t : W ⊕ X) (g : G) (proc : W)
  | initFred (w : W) (g : G)           -- `idleLoop` runs the worker's first fibre
  | idle (w : W)
  | yield (w : W)
  | yieldGlobal (w : W)
  | migrate (w : W) (proc : W)
  | terminate (w : W)
  | setPriority (f : Fibre W G) (p : Priority)
  | setAffinity (f : Fibre W G) (a : Bool)
  | prepareRace (w : W)
  | suspend (w : W)
  | resumeInfo (w : W)                 -- `suspend` returns
  | searchLocal (w : W) (p : Priority)
  | searchSteal (w victim : W) (p : Priority)
  | searchFails (w : W)
  | stackSwitch (w : W)
  | post (w : W)
  | enqueue (t : W ⊕ X)
  | raceResume (g : G)
  | resume (t : W ⊕ X) (g : G)
  | resumeDirect (w : W) (g : G)
  | semaphoreP (w : W) (q : Q)
  | semaphoreV (q : Q)
  | barrierWait (w : W) (q : Q)
  | arrive (w : W)
  | notify (w : W)
  | block (w : W) (q : Q) (timed : Bool)
  | func (w : W) (ok : Bool)           -- the test that `block` calls
  | remove (w : W)
  | unblock (q : Q)

/-! ### The code -/

variable {W X G Q S : Type} [DecidableEq W] [DecidableEq X] [DecidableEq G] [DecidableEq Q]
  [DecidableEq S]

/-- Worker `w` goes to another place. -/
def State.setPc (s : State W X G Q) (w : W) (c : Pc W G) : State W X G Q :=
  { s with pc := Function.update s.pc w c }

/-- The words of a fibre change. -/
def State.setFred (s : State W X G Q) (f : Fibre W G) (r : FredState W Q) : State W X G Q :=
  { s with fred := Function.update s.fred f r }

/-- The thread is about to enqueue `f`. -/
def State.hold (s : State W X G Q) (t : W ⊕ X) (f : Fibre W G) : State W X G Q :=
  { s with held := Function.update s.held t (some f) }

/-- A blocking queue changes. -/
def State.setQueue (s : State W X G Q) (q : Q) (l : List (Fibre W G)) : State W X G Q :=
  { s with queue := Function.update s.queue q l }

/-- One of a worker's ready queues changes. -/
def State.setReady (s : State W X G Q) (w : W) (p : Priority) (l : List (Fibre W G)) :
    State W X G Q :=
  { s with readyQueue :=
      Function.update s.readyQueue w (Function.update (s.readyQueue w) p l) }

/-- The fibre that runs on a worker outside its runtime routines; idle fibres only run `idleLoop`. -/
def State.current (s : State W X G Q) (w : W) : Option G :=
  match s.pc w, s.held (.inl w) with
  | .exec (.user g), none => some g
  | _, _ => none

/-- The fibre that runs on a worker, if it is in the middle of nothing. -/
def State.free (s : State W X G Q) (w : W) : Option G :=
  match s.current w with
  | some g => if (s.fred (.user g)).loc = .free then some g else none
  | none => none

/-- `start`: set up a fibre and resume it. -/
def start (s : State W X G Q) (t : W ⊕ X) (g : G) (proc : W) : State W X G Q :=
  (s.setFred (.user g) { s.fred (.user g) with life := .started, processor := proc }).hold t
    (.user g)

/-- `idleYieldTo` the first fibre of a worker. -/
def initFred (s : State W X G Q) (w : W) (g : G) : State W X G Q :=
  (s.setFred (.user g) { s.fred (.user g) with life := .started }).setPc w
    (.chosen (.idle w) .Idle (.user g))

/-- `migrate`, up to its search for another fibre. -/
def migrate (c : Config W Q S) (s : State W X G Q) (w : W) (g : G) (proc : W) : State W X G Q :=
  (s.setFred (.user g) { s.fred (.user g) with processor := proc }).setPc w
    (.search (.user g)
      (if c.scheduler (s.fred (.user g)).processor = c.scheduler proc then .migrate else .resume)
      false)

/-- `suspend`: resumed already? then skip the suspension. -/
def suspend (s : State W X G Q) (w : W) (g : G) : Option (State W X G Q) :=
  match (s.fred (.user g)).loc with
  | .suspending how =>
    if (s.fred (.user g)).runState = ResumedEarly then
      some (s.setFred (.user g) { s.fred (.user g) with runState := Running, loc := .woken how })
    else some (s.setPc w (.search (.user g) .suspend false))
  | _ => none

/-- What follows `suspend`: a timed `block` that the timer has ended takes its link out itself. -/
def resumeInfo (s : State W X G Q) (g : G) : Option (State W X G Q) :=
  match (s.fred (.user g)).loc with
  | .woken (.link q true) =>
    some (s.setFred (.user g) { s.fred (.user g) with
      wake := .closed
      loc := if (s.fred (.user g)).wake = .used false then .removing q else .free })
  | .woken _ => some (s.setFred (.user g) { s.fred (.user g) with wake := .closed, loc := .free })
  | _ => none

/-- Where a search goes on that has found nothing: `searchSteal` follows `searchLocal`, `scheduleFull`
    falls back on the idle fibre. -/
def searchFails (w : W) (f : Fibre W G) : Goal → Bool → Pc W G
  | .idle, steal => .search f .idle (!steal)
  | .yield, _ => .exec f
  | .yieldGlobal, false => .search f .yieldGlobal true
  | .yieldGlobal, true => .exec f
  | .migrate, false => .search f .migrate true
  | .migrate, true => .search f .resume false
  | .resume, false => .search f .resume true
  | .resume, true => .chosen f .Resume (.idle w)
  | .suspend, false => .search f .suspend true
  | .suspend, true => .chosen f .Suspend (.idle w)
  | .terminate, false => .search f .terminate true
  | .terminate, true => .chosen f .Terminate (.idle w)

/-- `checkAffinity`. -/
def checkAffinity (r : FredState W Q) (w : W) : FredState W Q :=
  if r.affinity then r else { r with processor := w }

/-- The stack of the fibre comes into use; a suspended one is about to return from `suspend`. -/
def activate (r : FredState W Q) : FredState W Q :=
  { r with
    saved := false
    loc := match r.loc with
      | .suspending how => .woken how
      | l => l }

/-- `stackSwitch`. -/
def stackSwitch (s : State W X G Q) (w : W) (f : Fibre W G) (code : SwitchCode) (g : Fibre W G) :
    State W X G Q :=
  ((s.setFred f { s.fred f with saved := true }).setFred g (activate (s.fred g))).setPc w
    (.post f code g)

/-- The callbacks after a stack switch; those that resume or yield have the fibre in hand then. -/
def post (s : State W X G Q) (w : W) (f : Fibre W G) (g : Fibre W G) :
    SwitchCode → State W X G Q
  | .Idle => s.setPc w (.exec g)
  | .Yield | .Resume => (s.setPc w (.exec g)).hold (.inl w) f
  | .Suspend =>
    let s' := (s.setPc w (.exec g)).setFred f
      { s.fred f with runState := fetchSub (s.fred f).runState }
    if (s.fred f).runState = ResumedEarly then s'.hold (.inl w) f else s'
  | .Terminate => (s.setPc w (.exec g)).setFred f { s.fred f with life := .destroyed }

/-- `enqueueYield` and `enqueueResume`: into the ready queue of the fibre's processor. -/
def enqueue (s : State W X G Q) (t : W ⊕ X) (f : Fibre W G) : State W X G Q :=
  { s.setReady (s.fred f).processor (s.fred f).priority
      (s.readyQueue (s.fred f).processor (s.fred f).priority ++ [f]) with
    held := Function.update s.held t none }

/-- A fibre after the `fetch_add` of its `resume`. -/
def resumed (r : FredState W Q) (popped : Bool) : FredState W Q :=
  { r with runState := fetchAdd r.runState, wake := .used popped }

/-- Threads call `resume` from a fibre and, polling, from a search. -/
def State.resumes (s : State W X G Q) : W ⊕ X → Bool
  | .inl w =>
    match s.pc w with
    | .exec _ | .search .. => true
    | _ => false
  | .inr _ => true

/-- `resume`, without and with a direct switch. -/
def resume (s : State W X G Q) (t : W ⊕ X) (g : G) (popped : Bool) : State W X G Q :=
  let s' := s.setFred (.user g) (resumed (s.fred (.user g)) popped)
  if (s.fred (.user g)).runState = Parked then s'.hold t (.user g) else s'

/-- `resumeDirect`: a fibre that is parked is run at once. -/
def resumeDirect (s : State W X G Q) (w : W) (h g : G) (popped : Bool) : State W X G Q :=
  let s' := s.setFred (.user g) (resumed (s.fred (.user g)) popped)
  if (s.fred (.user g)).runState = Parked then
    s'.setPc w (.chosen (.user h) .Resume (.user g))
  else s'

/-- A fibre prepares its resume race and has its link put into a queue. -/
def push (s : State W X G Q) (g : G) (q : Q) (l : Loc Q) : State W X G Q :=
  (s.setFred (.user g) { s.fred (.user g) with wake := .opened, loc := l }).setQueue q
    (s.queue q ++ [.user g])

/-- The first fibre of a queue is popped, and its wake-up won. -/
def pop (s : State W X G Q) (q : Q) (f : Fibre W G) (rest : List (Fibre W G)) : State W X G Q :=
  (s.setFred f { s.fred f with wake := .won true }).setQueue q rest

/-- `FastBarrier::wait` at its counter. -/
def arrive (c : Config W Q S) (s : State W X G Q) (g : G) : Option (State W X G Q) :=
  match (s.fred (.user g)).loc with
  | .linked q _ =>
    match c.kind q with
    | .barrier target =>
      let n := s.counter q + 1
      if n % target = 0 then
        some { s.setFred (.user g) { s.fred (.user g) with loc := .notifying q target true } with
          counter := Function.update s.counter q (n - target) }
      else
        some { s.setFred (.user g) { s.fred (.user g) with loc := .suspending (.link q false) } with
          counter := Function.update s.counter q n }
    | _ => none
  | _ => none

/-- One round of the loop of the notifier, which does not suspend if it has popped itself. -/
def notify (s : State W X G Q) (g : G) : Option (State W X G Q) :=
  match (s.fred (.user g)).loc with
  | .notifying q 0 park =>
    some (s.setFred (.user g) { s.fred (.user g) with
      loc := if park then .suspending (.link q false) else .free })
  | .notifying q (n + 1) park =>
    match s.queue q with
    | f :: rest =>
      if f = .user g then
        some ((s.setFred f { s.fred f with wake := .closed, loc := .notifying q n false }).setQueue
          q rest)
      else
        some ((pop s q f rest).setFred (.user g)
          { s.fred (.user g) with loc := .notifying q n park })
    | [] => none
  | _ => none

/-- `ConditionalNemesisQueue::block` at its test: without the need to block any more, the fibre races
    for its own wake-up. -/
def func (c : Config W Q S) (s : State W X G Q) (g : G) (ok : Bool) : Option (State W X G Q) :=
  match (s.fred (.user g)).loc with
  | .linked q timed =>
    if c.kind q = .conditional then
      if ok then
        some (s.setFred (.user g) { s.fred (.user g) with loc := .suspending (.link q timed) })
      else if (s.fred (.user g)).wake = .opened then
        some (s.setFred (.user g) { s.fred (.user g) with wake := .closed, loc := .removing q })
      else some (s.setFred (.user g) { s.fred (.user g) with loc := .suspending (.link q false) })
    else none
  | _ => none

/-- `NemesisDoubleQueue::remove`. -/
def remove (s : State W X G Q) (g : G) : Option (State W X G Q) :=
  match (s.fred (.user g)).loc with
  | .removing q =>
    some ((s.setFred (.user g) { s.fred (.user g) with loc := .free }).setQueue q
      ((s.queue q).erase (.user g)))
  | _ => none

/-- The wait goes with a resume race. -/
def How.races : How Q → Bool
  | .race => true
  | .link _ timed => timed

/-- Anybody may win the race of a suspension outside the queues, the timer that of a timed one. -/
def raceResume (s : State W X G Q) (g : G) : Option (State W X G Q) :=
  match (s.fred (.user g)).loc with
  | .suspending how =>
    if how.races = true ∧ (s.fred (.user g)).wake = .opened then
      some (s.setFred (.user g) { s.fred (.user g) with wake := .won false })
    else none
  | _ => none

/-- One step. -/
def step (c : Config W Q S) (s : State W X G Q) : Action W X G Q → Option (State W X G Q)
  | .start t g proc =>
    if (s.fred (.user g)).life = .fresh ∧ s.held t = none ∧ s.resumes t = true then
      some (start s t g proc)
    else none
  | .initFred w g =>
    if (s.fred (.user g)).life = .fresh ∧ s.held (.inl w) = none ∧ s.pc w = .exec (.idle w) then
      some (initFred s w g)
    else none
  | .idle w =>
    if s.held (.inl w) = none ∧ s.pc w = .exec (.idle w) then
      some (s.setPc w (.search (.idle w) .idle false))
    else none
  | .yield w => (s.free w).map fun g => s.setPc w (.search (.user g) .yield false)
  | .yieldGlobal w => (s.free w).map fun g => s.setPc w (.search (.user g) .yieldGlobal false)
  | .migrate w proc => (s.free w).map fun g => migrate c s w g proc
  | .terminate w => (s.free w).map fun g => s.setPc w (.search (.user g) .terminate false)
  | .setPriority f p => some (s.setFred f { s.fred f with priority := p })
  | .setAffinity f a => some (s.setFred f { s.fred f with affinity := a })
  | .prepareRace w =>
    (s.free w).map fun g =>
      s.setFred (.user g) { s.fred (.user g) with wake := .opened, loc := .suspending .race }
  | .suspend w => (s.current w).bind fun g => suspend s w g
  | .resumeInfo w => (s.current w).bind fun g => resumeInfo s g
  | .searchLocal w p =>
    match s.pc w, s.readyQueue w p with
    | .search f goal false, g :: rest =>
      if s.held (.inl w) = none then
        some ((s.setReady w p rest).setPc w (.chosen f goal.code g))
      else none
    | _, _ => none
  | .searchSteal w victim p =>
    match s.pc w, s.readyQueue victim p with
    | .search f goal true, g :: rest =>
      if s.held (.inl w) = none ∧ victim ≠ w ∧ c.scheduler victim = c.scheduler w then
        some (((s.setReady victim p rest).setFred g (checkAffinity (s.fred g) w)).setPc w
          (.chosen f goal.code g))
      else none
    | _, _ => none
  | .searchFails w =>
    match s.pc w with
    | .search f goal steal =>
      if s.held (.inl w) = none then some (s.setPc w (searchFails w f goal steal)) else none
    | _ => none
  | .stackSwitch w =>
    match s.pc w with
    | .chosen f code g => if s.held (.inl w) = none then some (stackSwitch s w f code g) else none
    | _ => none
  | .post w =>
    match s.pc w with
    | .post f code g => if s.held (.inl w) = none then some (post s w f g code) else none
    | _ => none
  | .enqueue t => (s.held t).map fun f => enqueue s t f
  | .raceResume g => raceResume s g
  | .resume t g =>
    match (s.fred (.user g)).wake with
    | .won popped =>
      if s.held t = none ∧ s.resumes t = true then some (resume s t g popped) else none
    | _ => none
  | .resumeDirect w g =>
    match (s.fred (.user g)).wake with
    | .won popped => (s.free w).map fun h => resumeDirect s w h g popped
    | _ => none
  | .semaphoreP w q =>
    if c.kind q = .semaphore0 then
      (s.free w).map fun g => push s g q (.suspending (.link q false))
    else none
  | .semaphoreV q =>
    match c.kind q, s.queue q with
    | .semaphore0, f :: rest => some (pop s q f rest)
    | _, _ => none
  | .barrierWait w q =>
    match c.kind q with
    | .barrier _ => (s.free w).map fun g => push s g q (.linked q false)
    | _ => none
  | .arrive w => (s.current w).bind fun g => arrive c s g
  | .notify w => (s.current w).bind fun g => notify s g
  | .block w q timed =>
    if c.kind q = .conditional then (s.free w).map fun g => push s g q (.linked q timed) else none
  | .func w ok => (s.current w).bind fun g => func c s g ok
  | .remove w => (s.current w).bind fun g => remove s g
  | .unblock q =>
    match c.kind q, s.queue q with
    | .conditional, f :: rest =>
      if (s.fred f).wake = .opened then some (pop s q f rest) else none
    | _, _ => none

/-- A fibre outside all of this. -/
structure FredState.Fresh (r : FredState W Q) : Prop where
  runState : r.runState = Running
  wake : r.wake = .closed
  loc : r.loc = .free

/-- The start of a program: every worker runs its own idle fibre or, for the worker of the program's
    first thread, some other fibre; nobody is in a queue. -/
structure Booted (s : State W X G Q) : Prop where
  exec : ∀ w, s.pc w = .exec (.idle w) ∨ ∃ g, s.pc w = .exec (.user g)
  once : ∀ w w' f, s.pc w = .exec f → s.pc w' = .exec f → w = w'
  held : ∀ t, s.held t = none
  readyQueue : ∀ w p, s.readyQueue w p = []
  queue : ∀ q, s.queue q = []
  fred : ∀ f, (s.fred f).Fresh
  running : ∀ w f, s.pc w = .exec f → (s.fred f).saved = false ∧ (s.fred f).life = .started
  idle : ∀ w, s.pc w ≠ .exec (.idle w) →
    (s.fred (.idle w)).saved = true ∧ (s.fred (.idle w)).life = .started
  user : ∀ g, (∀ w, s.pc w ≠ .exec (.user g)) →
    (s.fred (.user g)).saved = true ∧ (s.fred (.user g)).life = .fresh

/-- All interleavings after start-up. -/
def system (X G : Type) [DecidableEq X] [DecidableEq G] (c : Config W Q S) :
    System (State W X G Q) (Action W X G Q) where
  init := Booted
  step := step c

/-- `ConditionalNemesisQueue::block` with a timeout leaves the link in the queue when the timer wins.
    The timer's `resume` of such a fibre, once it has passed the test in `suspend`, gets it enqueued
    with that link. -/
def ResumesLinked (s : State W X G Q) : Action W X G Q → Prop
  | .resume _ g | .resumeDirect _ g =>
    (s.fred (.user g)).wake = .won false ∧
    (∃ q, (s.fred (.user g)).loc = .suspending (.link q true)) ∧ ∀ w, s.pc w ≠ .exec (.user g)
  | _ => False

end Libfibre.Scheduler
