import Libfibre.Scheduler.Model

/-! Workers of several clusters (`BaseProcessor.cc`, `Fred.cc`, `Scheduler.h`): which worker a fibre may
    come to run on. A fibre is enqueued with its `processor`, or handed over within the scheduler of
    that processor; who takes it from another worker's queue or is handed it makes itself its
    processor, unless the fibre has an affinity; `migrate` gives a fibre a processor anywhere.

        readyQueue w ──searchLocal──▶ chosen        enqueueResume f ──▶ readyQueue (processor f)
              └──────searchSteal──▶ taken ─┐              │ a worker waits
        waitingFreds ────block────▶ taken ─┼▶ chosen      ▼
        handoverFred ───handover──▶ taken ─┘         waitingFreds, or wake ──▶ handoverFred
                             checkAffinity

    Each look at `processor`, each section under a lock, each update of a counter, `handoverFred` or a
    semaphore, each stack switch and each callback is one step. `W` are the workers, `X` the other
    threads that resume fibres, `S` the schedulers. -/

namespace Libfibre.Isolation
open Transition
open Scheduler (Fibre Priority Life)
open Fred (Parked Running ResumedEarly fetchAdd fetchSub)

/-! ### State -/

/-- What a worker looks for another fibre for, or switches to one for. -/
inductive Goal where
  | idle
  | yield
  | yieldGlobal
  | migrate       -- its `yieldGlobal`
  | resume        -- its `scheduleFull`
  | suspend
  | terminate
  | direct        -- `resumeDirect`
  deriving DecidableEq

/-- Where a worker is; past `scheduleIdle`'s rounds it is with its idle fibre. -/
inductive Pc (W G : Type) where
  | exec (f : Fibre W G)
  | token (f : Fibre W G) (goal : Goal)                   -- at `tryGetReadyFred`
  | search (f : Fibre W G) (goal : Goal) (steal : Bool)
  | taken (f : Fibre W G) (goal : Goal) (nextFred : Fibre W G)   -- before `checkAffinity`
  | chosen (f : Fibre W G) (goal : Goal) (nextFred : Fibre W G)
  | post (prevFred : Fibre W G) (goal : Goal) (f : Fibre W G)
  | getReadyFred
  | block
  | halt
  | handover      -- past `haltSem.P`
  deriving DecidableEq

/-- Where a thread is that enqueues a fibre. -/
inductive Add (W G : Type) where
  | done
  | reading (f : Fibre W G) (yield : Bool)       -- before the look at `processor`
  | addReadyFred (f : Fibre W G) (proc : W)
  | enqueueFred (f : Fibre W G) (proc : W)
  | unblock (f : Fibre W G) (proc : W)
  | wake (f : Fibre W G) (proc : W)
  | haltSemV (proc : W)
  deriving DecidableEq

/-- What the schedulers know of a fibre; `target`: it is in a `migrate` to that scheduler. -/
structure FredState (W S : Type) where
  processor : W
  priority : Priority
  affinity : Bool
  runState : ℕ
  life : Life
  target : Option S

/-- What the idle manager of a scheduler knows. -/
structure IdleManager (W G : Type) where
  fredCounter : ℤ
  waitingProcs : List W
  waitingFreds : List (Fibre W G)

/-- Workers `W`, other threads `X`, fibres `G` and schedulers `S`. -/
structure State (W X G S : Type) where
  pc : W → Pc W G
  adding : W ⊕ X → Add W G
  readyQueue : W → Priority → List (Fibre W G)
  idleManager : S → IdleManager W G
  halting : W → Bool
  haltSem : W → ℕ
  handoverFred : W → Option (Fibre W G)
  fred : Fibre W G → FredState W S

/-- What stays: the scheduler of each worker, `TESTING_GO_IDLEMANAGER` (under which nothing is handed
    over) and `TESTING_WAKE_FRED_WORKER`. -/
structure Config (W S : Type) where
  scheduler : W → S
  go : Bool
  wakeFredWorker : Bool

/-- What a thread does next; the choices that the code leaves open are in the arguments. -/
inductive Action (W X G : Type) where
  | start (t : W ⊕ X) (g : G) (proc : W) (affinity : Bool)
  | initFred (w : W) (g : G)           -- `idleLoop` runs the worker's first fibre
  | idle (w : W)
  | yield (w : W)
  | yieldGlobal (w : W)
  | migrate (w : W) (proc : W)
  | migrated (w : W)                   -- `migrate` returns
  | suspend (w : W)
  | terminate (w : W)
  | resume (t : W ⊕ X) (g : G)
  | resumeDirect (w : W) (g : G)
  | tryGetReadyFred (w : W) (lost last : Bool)
  | searchLocal (w : W) (p : Priority)
  | searchSteal (w victim : W) (p : Priority)
  | searchFails (w : W)
  | checkAffinity (w : W)
  | getReadyFred (w : W)
  | block (w : W)
  | haltP (w : W)
  | handover (w : W)
  | stackSwitch (w : W)
  | post (w : W)
  | addNext (t : W ⊕ X)

/-! ### The code -/

variable {W X G S : Type} [DecidableEq W] [DecidableEq X] [DecidableEq G] [DecidableEq S]

/-- Worker `w` goes to another place. -/
def State.setPc (s : State W X G S) (w : W) (c : Pc W G) : State W X G S :=
  { s with pc := Function.update s.pc w c }

/-- The words of a fibre change. -/
def State.setFred (s : State W X G S) (f : Fibre W G) (r : FredState W S) : State W X G S :=
  { s with fred := Function.update s.fred f r }

/-- A thread goes to another place in `addReadyFred`. -/
def State.setAdding (s : State W X G S) (t : W ⊕ X) (a : Add W G) : State W X G S :=
  { s with adding := Function.update s.adding t a }

/-- One of a worker's ready queues changes. -/
def State.setReady (s : State W X G S) (w : W) (p : Priority) (l : List (Fibre W G)) :
    State W X G S :=
  { s with readyQueue :=
      Function.update s.readyQueue w (Function.update (s.readyQueue w) p l) }

/-- The idle manager of a scheduler changes. -/
def State.setIdleManager (s : State W X G S) (x : S) (m : IdleManager W G) : State W X G S :=
  { s with idleManager := Function.update s.idleManager x m }

/-- The fibre that runs on a worker outside the runtime's routines. -/
def State.current (s : State W X G S) (w : W) : Option G :=
  match s.pc w, s.adding (.inl w) with
  | .exec (.user g), .done => some g
  | _, _ => none

/-- The same, if it is not in `migrate` any more. -/
def State.free (s : State W X G S) (w : W) : Option G :=
  match s.current w with
  | some g => if (s.fred (.user g)).target = none then some g else none
  | none => none

/-- A worker that is not enqueueing a fibre. -/
def State.at (s : State W X G S) (w : W) : Option (Pc W G) :=
  if s.adding (.inl w) = .done then some (s.pc w) else none

/-- Threads resume fibres from a fibre and, polling, from a search. -/
def State.resumes (s : State W X G S) : W ⊕ X → Bool
  | .inl w =>
    match s.pc w with
    | .exec _ | .search .. => true
    | _ => false
  | .inr _ => true

/-- `start`: set up a fibre and resume it. -/
def start (s : State W X G S) (t : W ⊕ X) (g : G) (proc : W) (affinity : Bool) : State W X G S :=
  (s.setFred (.user g) { s.fred (.user g) with
    life := .started, processor := proc, affinity := affinity }).setAdding t
    (.reading (.user g) false)

/-- `idleYieldTo` the first fibre of a worker. -/
def initFred (s : State W X G S) (w : W) (g : G) : State W X G S :=
  (s.setFred (.user g) { s.fred (.user g) with
    life := .started, processor := w, affinity := true }).setPc w (.chosen (.idle w) .idle (.user g))

/-- `scheduleNonblocking` is entered. -/
def nonblocking (c : Config W S) (f : Fibre W G) (goal : Goal) : Pc W G :=
  if c.go then .search f goal false else .token f goal

/-- `migrate`, up to its search for another fibre. -/
def migrate (c : Config W S) (s : State W X G S) (w : W) (g : G) (proc : W) : State W X G S :=
  (s.setFred (.user g) { s.fred (.user g) with
    processor := proc, target := some (c.scheduler proc) }).setPc w
    (if c.scheduler (s.fred (.user g)).processor = c.scheduler proc then
      .search (.user g) .migrate false
    else nonblocking c (.user g) .resume)

/-- `suspend`: resumed already? then skip the suspension. -/
def suspend (c : Config W S) (s : State W X G S) (w : W) (g : G) : State W X G S :=
  if (s.fred (.user g)).runState = ResumedEarly then
    s.setFred (.user g) { s.fred (.user g) with runState := Running }
  else s.setPc w (nonblocking c (.user g) .suspend)

/-- A fibre after the `fetch_add` of its `resume`. -/
def resumed (r : FredState W S) : FredState W S := { r with runState := fetchAdd r.runState }

/-- `resume`, without and with a direct switch; no result: its assertion fails. -/
def resume (s : State W X G S) (t : W ⊕ X) (g : G) : Option (State W X G S) :=
  let s' := s.setFred (.user g) (resumed (s.fred (.user g)))
  if (s.fred (.user g)).runState = Parked then some (s'.setAdding t (.reading (.user g) false))
  else if (s.fred (.user g)).runState = Running then some s'
  else none

/-- `resumeDirect`: a fibre that is parked is run at once. -/
def resumeDirect (s : State W X G S) (w : W) (h g : G) : Option (State W X G S) :=
  let s' := s.setFred (.user g) (resumed (s.fred (.user g)))
  if (s.fred (.user g)).runState = Parked then
    some (s'.setPc w (.chosen (.user h) .direct (.user g)))
  else if (s.fred (.user g)).runState = Running then some s'
  else none

/-- Where a worker goes on without a token; `last`: `scheduleIdle` has made its rounds. -/
def noToken (w : W) (f : Fibre W G) (last : Bool) : Goal → Pc W G
  | .idle => if last then .getReadyFred else .token f .idle
  | goal => .chosen f goal (.idle w)

/-- `tryGetReadyFred`; `lost`: the counter changes before the `compare_exchange`. -/
def tryGetReadyFred (c : Config W S) (s : State W X G S) (w : W) (f : Fibre W G) (goal : Goal)
    (lost last : Bool) : State W X G S :=
  let m := s.idleManager (c.scheduler w)
  if 0 < m.fredCounter ∧ lost = false then
    (s.setIdleManager (c.scheduler w) { m with fredCounter := m.fredCounter - 1 }).setPc w
      (.search f goal false)
  else s.setPc w (noToken w f last goal)

/-- Where a search goes on that has found nothing: `searchSteal` follows `searchLocal`;
    `scheduleBlocking` starts again, `scheduleFull` falls back on the idle fibre. -/
def searchFails (c : Config W S) (w : W) (f : Fibre W G) : Goal → Bool → Pc W G
  | .yield, _ => .exec f
  | .yieldGlobal, false => .search f .yieldGlobal true
  | .yieldGlobal, true => .exec f
  | .migrate, false => .search f .migrate true
  | .migrate, true => nonblocking c f .resume
  | goal, false => .search f goal true
  | .idle, true => .search f .idle false
  | goal, true => if c.go then .chosen f goal (.idle w) else .search f goal false

/-- `checkAffinity`. -/
def checkAffinity (r : FredState W S) (w : W) : FredState W S :=
  if r.affinity then r else { r with processor := w }

/-- `IdleManager::getReadyFred`, up to its `block`. -/
def getReadyFred (c : Config W S) (s : State W X G S) (w : W) : State W X G S :=
  let m := s.idleManager (c.scheduler w)
  (s.setIdleManager (c.scheduler w) { m with fredCounter := m.fredCounter - 1 }).setPc w
    (if 0 < m.fredCounter then .search (.idle w) .idle false else .block)

/-- The section of `IdleManager::block`. -/
def block (c : Config W S) (s : State W X G S) (w : W) : State W X G S :=
  let m := s.idleManager (c.scheduler w)
  match m.waitingFreds with
  | [] =>
    { (s.setIdleManager (c.scheduler w) { m with waitingProcs := w :: m.waitingProcs }).setPc w
        .halt with
      halting := Function.update s.halting w true }
  | f :: rest =>
    (s.setIdleManager (c.scheduler w) { m with waitingFreds := rest }).setPc w
      (.taken (.idle w) .idle f)

/-- The callbacks after a stack switch. -/
def post (s : State W X G S) (w : W) (f : Fibre W G) (g : Fibre W G) : Goal → State W X G S
  | .idle => s.setPc w (.exec g)
  | .yield | .yieldGlobal | .migrate => (s.setPc w (.exec g)).setAdding (.inl w) (.reading f true)
  | .resume | .direct => (s.setPc w (.exec g)).setAdding (.inl w) (.reading f false)
  | .suspend =>
    let s' := (s.setPc w (.exec g)).setFred f
      { s.fred f with runState := fetchSub (s.fred f).runState }
    if (s.fred f).runState = ResumedEarly then s'.setAdding (.inl w) (.reading f false) else s'
  | .terminate => (s.setPc w (.exec g)).setFred f { s.fred f with life := .destroyed }

/-- `addReadyFred`, up to its `unblock`. -/
def addReadyFred (c : Config W S) (s : State W X G S) (t : W ⊕ X) (f : Fibre W G) (proc : W) :
    State W X G S :=
  let m := s.idleManager (c.scheduler proc)
  (s.setIdleManager (c.scheduler proc) { m with fredCounter := m.fredCounter + 1 }).setAdding t
    (if 0 < m.fredCounter + 1 then .enqueueFred f proc else .unblock f proc)

/-- `enqueueFred`: into the queue of the fibre's priority at `proc`. -/
def enqueueFred (s : State W X G S) (f : Fibre W G) (proc : W) : State W X G S :=
  s.setReady proc (s.fred f).priority (s.readyQueue proc (s.fred f).priority ++ [f])

/-- The section of `IdleManager::unblock`; `isHalting` tells nothing without
    `TESTING_WAKE_FRED_WORKER`. -/
def unblock (c : Config W S) (s : State W X G S) (t : W ⊕ X) (f : Fibre W G) (proc : W) :
    State W X G S :=
  let m := s.idleManager (c.scheduler proc)
  match m.waitingProcs with
  | [] =>
    (s.setIdleManager (c.scheduler proc) { m with waitingFreds := m.waitingFreds ++ [f] }).setAdding
      t .done
  | first :: rest =>
    if c.wakeFredWorker ∧ s.halting proc then
      { (s.setIdleManager (c.scheduler proc)
          { m with waitingProcs := m.waitingProcs.erase proc }).setAdding t (.wake f proc) with
        halting := Function.update s.halting proc false }
    else
      { (s.setIdleManager (c.scheduler proc) { m with waitingProcs := rest }).setAdding t
          (.wake f first) with
        halting := Function.update s.halting first false }

/-- The next step of a thread that enqueues a fibre. -/
def addNext (c : Config W S) (s : State W X G S) (t : W ⊕ X) : Option (State W X G S) :=
  match s.adding t with
  | .done => none
  | .reading f yield =>
    some (s.setAdding t (if yield ∨ c.go then .enqueueFred f (s.fred f).processor
      else .addReadyFred f (s.fred f).processor))
  | .addReadyFred f proc => some (addReadyFred c s t f proc)
  | .enqueueFred f proc => some ((enqueueFred s f proc).setAdding t .done)
  | .unblock f proc => some (unblock c s t f proc)
  | .wake f proc =>
    some { s.setAdding t (.haltSemV proc) with
      handoverFred := Function.update s.handoverFred proc (some f) }
  | .haltSemV proc =>
    some { s.setAdding t .done with
      haltSem := Function.update s.haltSem proc (s.haltSem proc + 1) }

/-- One step. -/
def step (c : Config W S) (s : State W X G S) : Action W X G → Option (State W X G S)
  | .start t g proc affinity =>
    if (s.fred (.user g)).life = .fresh ∧ s.adding t = .done ∧ s.resumes t = true then
      some (start s t g proc affinity)
    else none
  | .initFred w g =>
    if (s.fred (.user g)).life = .fresh ∧ s.at w = some (.exec (.idle w)) then
      some (initFred s w g)
    else none
  | .idle w =>
    if s.at w = some (.exec (.idle w)) then some (s.setPc w (nonblocking c (.idle w) .idle))
    else none
  | .yield w => (s.free w).map fun g => s.setPc w (.search (.user g) .yield false)
  | .yieldGlobal w => (s.free w).map fun g => s.setPc w (.search (.user g) .yieldGlobal false)
  | .migrate w proc => (s.free w).map fun g => migrate c s w g proc
  | .migrated w =>
    (s.current w).map fun g => s.setFred (.user g) { s.fred (.user g) with target := none }
  | .suspend w => (s.free w).map fun g => suspend c s w g
  | .terminate w => (s.free w).map fun g => s.setPc w (nonblocking c (.user g) .terminate)
  | .resume t g =>
    if s.adding t = .done ∧ s.resumes t = true then resume s t g else none
  | .resumeDirect w g => (s.free w).bind fun h => resumeDirect s w h g
  | .tryGetReadyFred w lost last =>
    match s.at w with
    | some (.token f goal) => some (tryGetReadyFred c s w f goal lost last)
    | _ => none
  | .searchLocal w p =>
    match s.at w, s.readyQueue w p with
    | some (.search f goal false), g :: rest =>
      some ((s.setReady w p rest).setPc w (.chosen f goal g))
    | _, _ => none
  | .searchSteal w victim p =>
    match s.at w, s.readyQueue victim p with
    | some (.search f goal true), g :: rest =>
      if victim ≠ w ∧ c.scheduler victim = c.scheduler w then
        some ((s.setReady victim p rest).setPc w (.taken f goal g))
      else none
    | _, _ => none
  | .searchFails w =>
    match s.at w with
    | some (.search f goal steal) => some (s.setPc w (searchFails c w f goal steal))
    | _ => none
  | .checkAffinity w =>
    match s.at w with
    | some (.taken f goal g) =>
      some ((s.setFred g (checkAffinity (s.fred g) w)).setPc w (.chosen f goal g))
    | _ => none
  | .getReadyFred w => if s.at w = some .getReadyFred then some (getReadyFred c s w) else none
  | .block w => if s.at w = some .block then some (block c s w) else none
  | .haltP w =>
    if s.at w = some .halt ∧ 0 < s.haltSem w then
      some { s.setPc w .handover with haltSem := Function.update s.haltSem w (s.haltSem w - 1) }
    else none
  | .handover w =>
    match s.at w, s.handoverFred w with
    | some .handover, some f => some (s.setPc w (.taken (.idle w) .idle f))
    | _, _ => none
  | .stackSwitch w =>
    match s.at w with
    | some (.chosen f goal g) => some (s.setPc w (.post f goal g))
    | _ => none
  | .post w =>
    match s.at w with
    | some (.post f goal g) => some (post s w f g goal)
    | _ => none
  | .addNext t => addNext c s t

/-- The start of a program: every worker runs its own idle fibre or, for the worker of the program's
    first thread, a fibre of its own; nothing is under way. -/
structure Booted (s : State W X G S) : Prop where
  exec : ∀ w, s.pc w = .exec (.idle w) ∨ ∃ g, s.pc w = .exec (.user g)
  once : ∀ w w' f, s.pc w = .exec f → s.pc w' = .exec f → w = w'
  adding : ∀ t, s.adding t = .done
  readyQueue : ∀ w p, s.readyQueue w p = []
  idleManager : ∀ x, s.idleManager x = ⟨0, [], []⟩
  halting : ∀ w, s.halting w = false
  haltSem : ∀ w, s.haltSem w = 0
  fred : ∀ f, (s.fred f).runState = Running ∧ (s.fred f).target = none
  started : ∀ w g, s.pc w = .exec (.user g) →
    (s.fred (.user g)).life = .started ∧ (s.fred (.user g)).processor = w
  fresh : ∀ g, (∀ w, s.pc w ≠ .exec (.user g)) → (s.fred (.user g)).life = .fresh
  idle : ∀ w, (s.fred (.idle w)).life = .started ∧ (s.fred (.idle w)).processor = w ∧
    (s.fred (.idle w)).affinity = true

/-- All interleavings after start-up. -/
def system (X G : Type) [DecidableEq X] [DecidableEq G] (c : Config W S) :
    System (State W X G S) (Action W X G) where
  init := Booted
  step := step c

/-! ### What it is for -/

/-- The fibre that a worker switches to, and what for. -/
def Pc.dispatches : Pc W G → Option (Goal × Fibre W G)
  | .chosen _ goal g | .post _ goal g => some (goal, g)
  | _ => none

/-- A ready queue holds the fibres of its processor; a fibre is dispatched within the scheduler of its
    processor, but by `resumeDirect`; and who returns from `migrate` is where it wanted to be. -/
structure Isolated (c : Config W S) (s : State W X G S) : Prop where
  ready : ∀ w p f, f ∈ s.readyQueue w p → (s.fred f).processor = w
  dispatched : ∀ w goal f, (s.pc w).dispatches = some (goal, f) → goal ≠ .direct →
    c.scheduler (s.fred f).processor = c.scheduler w
  migrated : ∀ w g x, s.pc w = .exec (.user g) → (s.fred (.user g)).target = some x →
    c.scheduler w = x

end Libfibre.Isolation
