import Libfibre.EventScope.OneShot
import Mathlib.Data.Prod.Basic

/-! The registrations of descriptors (`EventScope.h`) against the kernel's, with one fibre for each
    direction of a descriptor and one-shot registrations throughout. Each system call, each look at
    `poller`, each `setupFD` and each section of the semaphore is one step; the pollers fetch events
    and deliver them, late or to the wrong side, as `notifyOne` does.

        trying ─▶ looking ─(poller null)─▶ creating ──┐ Create
           │         └────────────────▶ modifying ────┤ Modify
           │                             ▲            ▼
           ▼        again                │         beforeP ──▶ inside
         idle ◀─────────────────────── retrying ◀─────┴───────────┘

    `syncIO` and `epoll_wait` look before they create; `checkAsyncCompletion` creates in any case. -/

namespace Libfibre.EventScope.Discipline
open Transition LockedSemaphore BlockingQueue

/-! ### The code -/

/-- The calls that may wait. -/
inductive Call where
  | accept4
  | read
  | write
  | epollWait (timeout : ℤ)
  | bind
  | connect
  deriving DecidableEq

/-- The direction of the descriptor that a call waits in. -/
def Call.direction : Call → Direction
  | .accept4 | .read | .epollWait _ => .input
  | .write | .bind | .connect => .output

/-- Waits in `checkAsyncCompletion`. -/
def Call.isAsync : Call → Bool
  | .bind | .connect => true
  | _ => false

/-- What a system call comes to: `EAGAIN` or no events, `EINPROGRESS`, or anything else. -/
inductive Outcome where
  | eagain
  | einprogress
  | final
  deriving DecidableEq

/-- The call goes on to wait. -/
def Call.pends (r : Outcome) : Call → Bool
  | .bind | .connect => decide (r = .einprogress)
  | .epollWait timeout => decide (r = .eagain ∧ timeout ≠ 0)
  | .accept4 | .read | .write => decide (r = .eagain)

/-- The arguments of its `sync.P`; `ahead`: the deadline is still to come. -/
def Call.args (ahead : Bool) : Call → Args
  | .epollWait timeout => if timeout < 0 then .wait true else .timeout ahead
  | _ => .wait true

/-- Where the fibre of one direction of a descriptor is. -/
inductive Pc where
  | idle
  | direct (call : Call)      -- the descriptor does not block: the system call alone
  | trying (call : Call)
  | looking (call : Call)
  | creating (call : Call)
  | modifying (call : Call)
  | beforeP (call : Call)
  | inside (call : Call)      -- in `sync.P`
  | retrying (call : Call)
  deriving DecidableEq

/-- A registration in the kernel, with the number of the wait that armed it last. -/
structure Registration where
  armed : Bool
  wait : ℕ
  deriving DecidableEq

/-- One direction of a descriptor: its fibre, `fdSyncVector[fd]` and the kernel's registrations with
    the pollers of this direction. `wait` numbers the waits of the fibres of this direction: the one
    under way, else the next one. -/
structure Entry (B : Type) where
  pc : Pc
  poller : Option B
  sync : LockedSemaphore.State Unit
  reg : B → Option Registration
  wait : ℕ

/-- What the application has done with a descriptor. -/
inductive Status where
  | closed
  | opened
  | closing     -- in `close`, past `cleanupFD`
  deriving DecidableEq

/-- The descriptors with both their directions, and the events in the hands of the pollers. -/
structure State (B : Type) where
  status : ℕ → Status
  blocking : ℕ → Bool
  entry : ℕ × Direction → Entry B
  events : Direction → B → List Event     -- fetched by the pollers and not yet looked at

/-- The places `K` a fibre may run at, and the pollers they have for each direction; input pollers and
    output pollers are different ones. `testing` is `TESTING_ENABLE_ASSERTIONS`, `tryRead` is
    `TESTING_EVENTPOLL_TRYREAD`. -/
structure Site (K B : Type) where
  testing : Bool
  tryRead : Bool
  getPoller : K → ℕ → Direction → B

/-- `x` is a descriptor with a direction; the kernel and the pollers act too. -/
inductive Action (K B : Type) where
  | epollCreate (ret : ℕ)
  | socket (ret : ℕ) (blocking : Bool)
  | enter (fd : ℕ) (call : Call)
  | attempt (x : ℕ × Direction) (r : Outcome)
  | accepted (fd ret : ℕ) (blocking : Bool)
  | look (x : ℕ × Direction) (k : K)
  | setupFD (x : ℕ × Direction)
  | P (x : ℕ × Direction) (ahead : Bool)
  | resumption (x : ℕ × Direction)
  | timer (x : ℕ × Direction)
  | cancel (x : ℕ × Direction)
  | cleanupFD (fd : ℕ)
  | close (fd : ℕ)
  | ready (d : Direction) (p : B) (ev : Event)
  | notifyOne (d : Direction) (p : B)

variable {K B : Type} [DecidableEq B] (c : Site K B)

def Entry.goto (e : Entry B) (p : Pc) : Entry B := { e with pc := p }

def State.put (s : State B) (x : ℕ × Direction) (e : Entry B) : State B :=
  { s with entry := Function.update s.entry x e }

/-- A system call returns a new descriptor, which its caller notes as blocking or not. -/
def State.opens (s : State B) (ret : ℕ) (blocking : Bool) : Option (State B) :=
  if s.status ret = .closed then
    some { s with
      status := Function.update s.status ret .opened
      blocking := Function.update s.blocking ret blocking }
  else none

/-- Where a call starts: `read` tries before it waits only if `tryRead` is set. -/
def Call.start (tryRead blocking : Bool) (call : Call) : Pc :=
  match call with
  | .epollWait _ => .trying call
  | .read => if blocking then if tryRead then .trying call else .looking call else .direct call
  | _ => if blocking then .trying call else .direct call

/-- A fibre calls a wrapper: one at a time in each direction of a descriptor. -/
def enter (s : State B) (fd : ℕ) (call : Call) : Option (State B) :=
  let x := (fd, call.direction)
  if s.status fd = .opened ∧ (s.entry x).pc = .idle then
    some (s.put x ((s.entry x).goto (call.start c.tryRead (s.blocking fd))))
  else none

/-- The system call; after the wait of `checkAsyncCompletion` it is `getsockopt`. -/
def Entry.attempt (e : Entry B) (r : Outcome) : Option (Entry B) :=
  match e.pc with
  | .direct _ => some (e.goto .idle)
  | .trying call => some (e.goto (if call.pends r then .looking call else .idle))
  | .retrying call => some (e.goto (if !call.isAsync && call.pends r then .modifying call else .idle))
  | _ => none

/-- `accept4` returns the descriptor of a connection. -/
def accepted (s : State B) (fd ret : ℕ) (blocking : Bool) : Option (State B) :=
  let x := (fd, Direction.input)
  match (s.entry x).pc with
  | .direct .accept4 | .trying .accept4 | .retrying .accept4 =>
    (s.put x ((s.entry x).goto .idle)).opens ret blocking
  | _ => none

/-- `if (!poller) poller = &getPoller(fd)`, in `syncIO` and `epoll_wait`. -/
def Entry.look (e : Entry B) (call : Call) (p : B) : Entry B :=
  match e.poller with
  | none => { e.goto (.creating call) with poller := some p }
  | some _ => e.goto (.modifying call)

/-- `poller = &getPoller(fd)`. -/
def Entry.checkAsyncCompletion (e : Entry B) (call : Call) (p : B) : Entry B :=
  { e.goto (.creating call) with poller := some p }

/-- The look at `poller`; `checkAsyncCompletion` writes it without one. -/
def look (s : State B) (x : ℕ × Direction) (k : K) : Option (State B) :=
  match (s.entry x).pc with
  | .looking call =>
    let p := c.getPoller k x.1 x.2
    some (s.put x (if call.isAsync then (s.entry x).checkAsyncCompletion call p
      else (s.entry x).look call p))
  | _ => none

/-- `epoll_ctl`; no result: it fails and changes nothing. -/
def epollCtl (op : Operation) (wait : ℕ) : Option Registration → Option (Option Registration)
  | none => if op = .create then some (some ⟨true, wait⟩) else none
  | some _ =>
    match op with
    | .create => none
    | .modify => some (some ⟨true, wait⟩)
    | .remove => some none

/-- `poller->setupFD`, one-shot; a failing `SYSCALL` ends the program if it is looked at. -/
def Entry.setup (e : Entry B) (testing : Bool) (op : Operation) (call : Call) : Option (Entry B) :=
  match e.poller with
  | none => none
  | some p =>
    match epollCtl op e.wait (e.reg p) with
    | some r => some { e.goto (.beforeP call) with reg := Function.update e.reg p r }
    | none => if testing then none else some (e.goto (.beforeP call))

/-- `setupFD` of the caller, which has decided between `Create` and `Modify` before. -/
def Entry.setupFD (e : Entry B) (testing : Bool) : Option (Entry B) :=
  match e.pc with
  | .creating call => e.setup testing .create call
  | .modifying call => e.setup testing .modify call
  | _ => none

/-- A wait is over. -/
def Entry.leave (e : Entry B) (p : Pc) (sync : LockedSemaphore.State Unit) : Entry B :=
  { e.goto p with sync := sync, wait := e.wait + 1 }

/-- `sync.P`. -/
def Entry.P (e : Entry B) (ahead : Bool) : Option (Entry B) :=
  match e.pc with
  | .beforeP call =>
    some (match internalP e.sync () (call.args ahead) with
      | (sync, none) => { e.goto (.inside call) with sync := sync }
      | (sync, some r) => e.leave (if r.ok then .retrying call else .idle) sync)
  | _ => none

/-- A fibre that a `V` has woken returns from `sync.P`. -/
def Entry.resumption (e : Entry B) : Option (Entry B) :=
  match e.pc with
  | .inside call => (LockedSemaphore.resumption e.sync ()).map fun sync => e.leave (.retrying call) sync
  | _ => none

/-- The deadline of a caller of `epoll_wait` wins its resume race. -/
def Entry.timer (e : Entry B) : Option (Entry B) :=
  (LockedSemaphore.timer e.sync ()).map fun sync => { e with sync := sync }

/-- A timed-out `sync.P` returns, and `epoll_wait` with it. -/
def Entry.cancel (e : Entry B) : Option (Entry B) :=
  match e.pc with
  | .inside _ => (LockedSemaphore.cancel e.sync ()).map fun sync => e.leave .idle sync
  | _ => none

/-- `cleanupFD`: `sync.reset()`, and no poller any more. -/
def Entry.reset (e : Entry B) : Entry B := { e with sync := e.sync.setCounter 0, poller := none }

/-- A `close` occupies both directions. -/
def cleanupFD (s : State B) (fd : ℕ) : Option (State B) :=
  if s.status fd = .opened ∧ ∀ d ∈ [Direction.input, .output], (s.entry (fd, d)).pc = .idle then
    some { s with
      status := Function.update s.status fd .closing
      blocking := Function.update s.blocking fd false
      entry := fun x => if x.1 = fd then (s.entry x).reset else s.entry x }
  else none

/-- `::close`: the descriptor loses its registrations. -/
def close (s : State B) (fd : ℕ) : Option (State B) :=
  if s.status fd = .closing then
    some { s with
      status := Function.update s.status fd .closed
      entry := fun x => if x.1 = fd then { s.entry x with reg := fun _ => none } else s.entry x }
  else none

/-- An event disarms the registration that it was made of. -/
def Entry.fire (e : Entry B) (p : B) (r : Registration) : Entry B :=
  { e with reg := Function.update e.reg p (some { r with armed := false }) }

/-- A poller fetches an event of an armed registration, which is disarmed. -/
def ready (s : State B) (d : Direction) (p : B) (ev : Event) : Option (State B) :=
  let x := (ev.fd, d)
  match (s.entry x).reg p with
  | none => none
  | some r =>
    if r.armed ∧ OneShot.Event.ofRegistration ev ev.fd d then
      some { s.put x ((s.entry x).fire p r) with
        events := Function.update s.events d
          (Function.update (s.events d) p (s.events d p ++ [ev])) }
    else none

/-- `sync.V()`. -/
def Entry.V (e : Entry B) : Entry B := { e with sync := (LockedSemaphore.V true e.sync).1 }

/-- `notifyOne` of the next event, whatever has become of the descriptor. -/
def deliver (s : State B) (d : Direction) (p : B) : Option (State B) :=
  match s.events d p with
  | [] => none
  | ev :: evs =>
    let s' := { s with events := Function.update s.events d (Function.update (s.events d) p evs) }
    some (match EventScope.notifyOne ev with
      | none => s'
      | some x => s'.put x (s.entry x).V)

/-- One step of a caller, of the kernel or of a poller. -/
def step (s : State B) : Action K B → Option (State B)
  | .epollCreate ret => s.opens ret (s.blocking ret)
  | .socket ret blocking => s.opens ret blocking
  | .enter fd call => enter c s fd call
  | .attempt x r => ((s.entry x).attempt r).map (s.put x)
  | .accepted fd ret blocking => accepted s fd ret blocking
  | .look x k => look c s x k
  | .setupFD x => ((s.entry x).setupFD c.testing).map (s.put x)
  | .P x ahead => ((s.entry x).P ahead).map (s.put x)
  | .resumption x => (s.entry x).resumption.map (s.put x)
  | .timer x => (s.entry x).timer.map (s.put x)
  | .cancel x => (s.entry x).cancel.map (s.put x)
  | .cleanupFD fd => cleanupFD s fd
  | .close fd => close s fd
  | .ready d p ev => ready s d p ev
  | .notifyOne d p => deliver s d p

/-- Nothing is registered, and nobody waits. -/
def Entry.init : Entry B := ⟨.idle, none, start 0, fun _ => none, 0⟩

/-- No descriptor is open. -/
def State.init : State B :=
  ⟨fun _ => .closed, fun _ => false, fun _ => Entry.init, fun _ _ => []⟩

/-- All interleavings of the callers, the kernel and the pollers. -/
def system : System (State B) (Action K B) := ⟨fun s => s = State.init, step c⟩

/-! ### The discipline -/

/-- On the way to the `setupFD` with `Create`. -/
def Pc.isCreating : Pc → Bool
  | .creating _ => true
  | _ => false

/-- Blocked, or past its `setupFD` and about to block. -/
def Pc.isWaiting : Pc → Bool
  | .beforeP _ | .inside _ => true
  | _ => false

/-- The table names exactly the poller that the descriptor is registered with. -/
def Entry.InStep (e : Entry B) : Prop := ∀ p, e.poller = some p ↔ (e.reg p).isSome = true

/-- `InStep` but between a write of the table and the system call that goes with it; `Create` only of
    an unregistered, `Modify` only of a registered descriptor; and who waits has armed the
    registration for this wait. -/
structure Entry.Disciplined (status : Status) (e : Entry B) : Prop where
  inStep : status ≠ .closing → e.pc.isCreating = false → e.InStep
  create : ∀ call, e.pc = .creating call → ∀ p, e.reg p = none
  modify : ∀ call, e.pc = .modifying call → ∃ p, e.poller = some p ∧ (e.reg p).isSome = true
  armed : e.pc.isWaiting = true → ∃ p r, e.poller = some p ∧ e.reg p = some r ∧ r.wait = e.wait

/-- Each direction of each descriptor is disciplined. -/
def Disciplined (s : State B) : Prop := ∀ x, (s.entry x).Disciplined (s.status x.1)

/-- A `connect`, or a `bind`, is to be completed while the output side has a poller already. -/
def repeats (s : State B) : Action K B → Bool
  | .look x _ =>
    match (s.entry x).pc with
    | .looking call => call.isAsync && (s.entry x).poller.isSome
    | _ => false
  | _ => false

/-! ### What holds at each place -/

variable {c} {s s' : State B} {e e' : Entry B} {st : Status} {x : ℕ × Direction}

/-- The registration is there, and was armed for the present wait. -/
def Entry.Armed (e : Entry B) : Prop := ∃ p r, e.poller = some p ∧ e.reg p = some r ∧ r.wait = e.wait

/-- What the table and the kernel know of an open descriptor whose fibre is at `p`. -/
def Entry.Fits (e : Entry B) : Pc → Prop
  | .creating _ => ∀ p, e.reg p = none
  | .modifying _ | .retrying _ => e.InStep ∧ e.poller.isSome = true
  | .beforeP _ | .inside _ => e.InStep ∧ e.Armed
  | .idle | .direct _ | .trying _ | .looking _ => e.InStep

/-- INVARIANT: of one direction of a descriptor. -/
def Entry.Inv (e : Entry B) : Status → Prop
  | .opened => e.Fits e.pc
  | .closing => e.pc = .idle ∧ e.poller = none
  | .closed => e.pc = .idle ∧ e.poller = none ∧ ∀ p, e.reg p = none

/-- INVARIANT: that of an entry, for each direction of each descriptor. -/
def Inv (s : State B) : Prop := ∀ x, (s.entry x).Inv (s.status x.1)

section
omit [DecidableEq B]

theorem Entry.InStep.unregistered (h : e.InStep) (hnone : e.poller = none) (p : B) :
    e.reg p = none := by
  cases hp : e.reg p with
  | none => rfl
  | some r =>
    have hsome := (h p).mpr (by rw [hp]; rfl)
    rw [hnone] at hsome
    cases hsome

theorem Entry.InStep.of_none (hnone : e.poller = none) (hreg : ∀ p, e.reg p = none) : e.InStep := by
  intro p
  rw [hnone, hreg p]
  simp

theorem Entry.Armed.isSome (h : e.Armed) : e.poller.isSome = true := by
  obtain ⟨p, _, hp, _⟩ := h
  rw [hp]
  rfl

/-- The invariant contains the discipline. -/
theorem Entry.Inv.disciplined (h : e.Inv st) : e.Disciplined st := by
  cases st with
  | opened =>
    have hfits : e.Fits e.pc := h
    refine ⟨fun _ hc => ?_, fun call hpc => ?_, fun call hpc => ?_, fun hw => ?_⟩
    · cases hpc : e.pc with
      | creating call => rw [hpc] at hc; cases hc
      | idle | direct _ | trying _ | looking _ => rw [hpc] at hfits; exact hfits
      | modifying _ | retrying _ | beforeP _ | inside _ => rw [hpc] at hfits; exact hfits.1
    · rw [hpc] at hfits
      exact hfits
    · rw [hpc] at hfits
      obtain ⟨p, hp⟩ := Option.isSome_iff_exists.mp hfits.2
      exact ⟨p, hp, (hfits.1 p).mp hp⟩
    · cases hpc : e.pc with
      | beforeP _ | inside _ => rw [hpc] at hfits; exact hfits.2
      | idle | direct _ | trying _ | looking _ | creating _ | modifying _ | retrying _ =>
        rw [hpc] at hw; cases hw
  | closing =>
    refine ⟨fun hne => absurd rfl hne, fun call hpc => ?_, fun call hpc => ?_, fun hw => ?_⟩
    · rw [h.1] at hpc; cases hpc
    · rw [h.1] at hpc; cases hpc
    · rw [h.1] at hw; cases hw
  | closed =>
    refine ⟨fun _ _ => .of_none h.2.1 h.2.2, fun call hpc => ?_, fun call hpc => ?_, fun hw => ?_⟩
    · rw [h.1] at hpc; cases hpc
    · rw [h.1] at hpc; cases hpc
    · rw [h.1] at hw; cases hw

/-- A fibre is in a call only on an open descriptor. -/
theorem Entry.Inv.inCall {p : Pc} (h : e.Inv st) (hpc : e.pc = p) (hp : p ≠ .idle) :
    st = .opened ∧ e.Fits p := by
  subst hpc
  cases st with
  | opened => exact ⟨rfl, h⟩
  | closing => exact absurd h.1 hp
  | closed => exact absurd h.1 hp

/-- Which registrations are armed now does not matter, nor what the semaphore is like. -/
theorem Entry.Fits.congr {p : Pc} (h : e.Fits p) (hpoller : e'.poller = e.poller)
    (hwait : e'.wait = e.wait)
    (hreg : ∀ q, (e'.reg q).map Registration.wait = (e.reg q).map Registration.wait) : e'.Fits p := by
  have hsome : ∀ q, (e'.reg q).isSome = (e.reg q).isSome := by
    intro q
    rw [← Option.isSome_map, hreg q, Option.isSome_map]
  have hstep : e.InStep → e'.InStep := by
    intro hin q
    rw [hpoller, hsome q]
    exact hin q
  have harmed : e.Armed → e'.Armed := by
    rintro ⟨q, r, hq, hr, hw⟩
    have hq' := hreg q
    rw [hr, Option.map_some, Option.map_eq_some_iff] at hq'
    obtain ⟨r', hr', hw'⟩ := hq'
    exact ⟨q, r', hpoller.trans hq, hr', by rw [hw', hw, hwait]⟩
  cases p with
  | creating call =>
    intro q
    have hq : e.reg q = none := h q
    rw [← Option.isNone_iff_eq_none, ← Option.not_isSome, hsome q, hq]
    rfl
  | modifying _ | retrying _ => exact ⟨hstep h.1, hpoller ▸ h.2⟩
  | beforeP _ | inside _ => exact ⟨hstep h.1, harmed h.2⟩
  | idle | direct _ | trying _ | looking _ => exact hstep h

theorem Entry.Inv.congr (h : e.Inv st) (hpc : e'.pc = e.pc) (hpoller : e'.poller = e.poller)
    (hwait : e'.wait = e.wait)
    (hreg : ∀ q, (e'.reg q).map Registration.wait = (e.reg q).map Registration.wait) : e'.Inv st := by
  cases st with
  | opened =>
    show e'.Fits e'.pc
    rw [hpc]
    exact Entry.Fits.congr h hpoller hwait hreg
  | closing => exact ⟨hpc.trans h.1, hpoller.trans h.2⟩
  | closed =>
    refine ⟨hpc.trans h.1, hpoller.trans h.2.1, fun q => ?_⟩
    have hq := hreg q
    rw [h.2.2 q, Option.map_none, Option.map_eq_none_iff] at hq
    exact hq

/-! ### One entry moves -/

theorem Entry.Inv.attempt {r : Outcome} (h : e.Inv st) (ha : e.attempt r = some e') : e'.Inv st := by
  rw [Entry.attempt] at ha
  split at ha
  case h_1 call hpc =>
    cases ha
    obtain ⟨rfl, hfits⟩ := h.inCall hpc nofun
    exact hfits
  case h_2 call hpc =>
    cases ha
    obtain ⟨rfl, hfits⟩ := h.inCall hpc nofun
    split_ifs
    · exact hfits
    · exact hfits
  case h_3 call hpc =>
    cases ha
    obtain ⟨rfl, hfits⟩ := h.inCall hpc nofun
    split_ifs
    · exact hfits
    · exact hfits.1
  case h_4 => cases ha

/-- `syncIO` and `epoll_wait` create a registration only where there is none. -/
theorem Entry.Inv.look {call : Call} (h : e.Inv st) (hpc : e.pc = .looking call) (p : B) :
    (e.look call p).Inv st := by
  obtain ⟨rfl, hfits⟩ := h.inCall hpc nofun
  rw [Entry.look]
  cases hp : e.poller with
  | none => exact hfits.unregistered hp
  | some q => exact ⟨hfits, Option.isSome_iff_exists.mpr ⟨q, hp⟩⟩

/-- `checkAsyncCompletion` does so on a side without a poller. -/
theorem Entry.Inv.checkAsyncCompletion {call : Call} (h : e.Inv st) (hpc : e.pc = .looking call)
    (hnone : e.poller = none) (p : B) : (e.checkAsyncCompletion call p).Inv st := by
  obtain ⟨rfl, hfits⟩ := h.inCall hpc nofun
  exact hfits.unregistered hnone

/-- A wait ends with the table and the kernel in step. -/
theorem Entry.Inv.leave (h : e.Inv st) (hpc : e.pc.isWaiting = true) (sync : LockedSemaphore.State Unit)
    {p : Pc} (hp : p = .idle ∨ ∃ call, p = .retrying call) : (e.leave p sync).Inv st := by
  have hboth : st = .opened ∧ e.InStep ∧ e.Armed := by
    cases hpc' : e.pc with
    | beforeP _ | inside _ => exact h.inCall hpc' nofun
    | idle | direct _ | trying _ | looking _ | creating _ | modifying _ | retrying _ =>
      rw [hpc'] at hpc; cases hpc
  obtain ⟨rfl, hboth⟩ := hboth
  rcases hp with rfl | ⟨call, rfl⟩
  · exact hboth.1
  · exact ⟨hboth.1, hboth.2.isSome⟩

theorem Entry.Inv.P {ahead : Bool} (h : e.Inv st) (ha : e.P ahead = some e') : e'.Inv st := by
  rw [Entry.P] at ha
  split at ha
  case h_1 call hpc =>
    cases ha
    split
    case h_1 sync _ =>
      obtain ⟨rfl, hfits⟩ := h.inCall hpc nofun
      exact hfits
    case h_2 sync r _ =>
      refine h.leave (by rw [hpc]; rfl) sync ?_
      split_ifs
      · exact .inr ⟨call, rfl⟩
      · exact .inl rfl
  case h_2 => cases ha

theorem Entry.Inv.resumption (h : e.Inv st) (ha : e.resumption = some e') : e'.Inv st := by
  rw [Entry.resumption] at ha
  split at ha
  case h_1 call hpc =>
    obtain ⟨sync, _, rfl⟩ := Option.map_eq_some_iff.mp ha
    exact h.leave (by rw [hpc]; rfl) sync (.inr ⟨call, rfl⟩)
  case h_2 => cases ha

theorem Entry.Inv.cancel (h : e.Inv st) (ha : e.cancel = some e') : e'.Inv st := by
  rw [Entry.cancel] at ha
  split at ha
  case h_1 call hpc =>
    obtain ⟨sync, _, rfl⟩ := Option.map_eq_some_iff.mp ha
    exact h.leave (by rw [hpc]; rfl) sync (.inl rfl)
  case h_2 => cases ha

theorem Entry.Inv.timer (h : e.Inv st) (ha : e.timer = some e') : e'.Inv st := by
  obtain ⟨sync, _, rfl⟩ := Option.map_eq_some_iff.mp ha
  exact h.congr rfl rfl rfl fun _ => rfl

end

/-- The poller of the entry arms the descriptor, which no other poller has. -/
theorem Entry.armed (call : Call) {p : B} (hp : e.poller = some p)
    (hother : ∀ q, q ≠ p → (e.reg q).isSome = false) :
    Entry.Inv { e.goto (.beforeP call) with
      reg := Function.update e.reg p (some ⟨true, e.wait⟩) } .opened := by
  refine ⟨fun q => ?_, p, ⟨true, e.wait⟩, hp, Function.update_self .., rfl⟩
  show e.poller = some q ↔ (Function.update e.reg p (some ⟨true, e.wait⟩) q).isSome = true
  rcases eq_or_ne q p with rfl | hne
  · rw [Function.update_self]
    exact ⟨fun _ => rfl, fun _ => hp⟩
  · rw [Function.update_of_ne hne, hp, hother q hne]
    simp [hne.symm]

/-- `Create` of a descriptor that is not registered: the call does not fail. -/
theorem Entry.Inv.create {call : Call} {testing : Bool} (h : e.Inv st) (hpc : e.pc = .creating call)
    (ha : e.setup testing .create call = some e') : e'.Inv st := by
  obtain ⟨rfl, hfits⟩ := h.inCall hpc nofun
  rw [Entry.setup] at ha
  split at ha
  case h_1 => cases ha
  case h_2 p hp =>
    rw [hfits p] at ha
    cases ha
    exact Entry.armed call hp fun q _ => by rw [hfits q]; rfl

/-- `Modify` of a registered descriptor arms it again. -/
theorem Entry.Inv.modify {call : Call} {testing : Bool} (h : e.Inv st) (hpc : e.pc = .modifying call)
    (ha : e.setup testing .modify call = some e') : e'.Inv st := by
  obtain ⟨rfl, hfits⟩ := h.inCall hpc nofun
  rw [Entry.setup] at ha
  split at ha
  case h_1 => cases ha
  case h_2 p hp =>
    have hsome := (hfits.1 p).mp hp
    obtain ⟨r, hr⟩ := Option.isSome_iff_exists.mp hsome
    rw [hr] at ha
    cases ha
    refine Entry.armed call hp fun q hne => ?_
    by_contra hreg
    have hq := (hfits.1 q).mpr (Bool.not_eq_false _ ▸ hreg)
    exact hne (Option.some.inj (hq.symm.trans hp))

theorem Entry.Inv.setupFD {testing : Bool} (h : e.Inv st) (ha : e.setupFD testing = some e') :
    e'.Inv st := by
  rw [Entry.setupFD] at ha
  split at ha
  case h_1 call hpc => exact h.create hpc ha
  case h_2 call hpc => exact h.modify hpc ha
  case h_3 => cases ha

theorem Entry.Inv.fire {p : B} {r : Registration} (h : e.Inv st) (hr : e.reg p = some r) :
    (e.fire p r).Inv st := by
  refine h.congr rfl rfl rfl fun q => ?_
  show (Function.update e.reg p (some { r with armed := false }) q).map Registration.wait = _
  rcases eq_or_ne q p with rfl | hne
  · rw [Function.update_self, hr]
    rfl
  · rw [Function.update_of_ne hne]

/-! ### Steps -/

section
omit [DecidableEq B]

theorem Inv.put (hi : Inv s) (he : e.Inv (s.status x.1)) : Inv (s.put x e) :=
  (Function.forall_update_iff s.entry fun y e => e.Inv (s.status y.1)).mpr ⟨he, fun y _ => hi y⟩

theorem Inv.opens {ret : ℕ} {blocking : Bool} (hi : Inv s) (h : s.opens ret blocking = some s') :
    Inv s' := by
  obtain ⟨hclosed, h⟩ := Option.ite_none_right_eq_some.mp h
  cases h
  intro y
  show (s.entry y).Inv (Function.update s.status ret .opened y.1)
  rcases eq_or_ne y.1 ret with hy | hne
  · have hiy := hi y
    rw [hy, hclosed] at hiy
    rw [hy, Function.update_self]
    show (s.entry y).Fits (s.entry y).pc
    rw [hiy.1]
    exact .of_none hiy.2.1 hiy.2.2
  · rw [Function.update_of_ne hne]
    exact hi y

/-- A call that starts or returns leaves the registration as it is. -/
theorem Inv.goto {p : Pc} (hi : Inv s) (hopen : s.status x.1 = .opened)
    (hin : (s.entry x).InStep) (hp : ∀ e : Entry B, e.InStep → e.Fits p) :
    Inv (s.put x ((s.entry x).goto p)) := by
  refine hi.put ?_
  rw [hopen]
  exact hp _ hin

theorem Inv.enter {fd : ℕ} {call : Call} {c : Site K B} (hi : Inv s)
    (h : enter c s fd call = some s') : Inv s' := by
  obtain ⟨⟨hopen, hpc⟩, h⟩ := Option.ite_none_right_eq_some.mp h
  cases h
  have hfits := hi (fd, call.direction)
  rw [hopen] at hfits
  have hin : (s.entry (fd, call.direction)).Fits .idle := hpc ▸ hfits
  refine hi.goto hopen hin fun e he => ?_
  unfold Call.start
  split
  · exact he
  · split_ifs
    · exact he
    · exact he
    · exact he
  · split_ifs
    · exact he
    · exact he

theorem Inv.accepted {fd ret : ℕ} {blocking : Bool} (hi : Inv s)
    (h : accepted s fd ret blocking = some s') : Inv s' := by
  rw [Discipline.accepted] at h
  split at h
  case h_1 hpc =>
    obtain ⟨hopen, hfits⟩ := (hi (fd, .input)).inCall hpc nofun
    exact (hi.goto (p := .idle) hopen hfits fun _ he => he).opens h
  case h_2 hpc =>
    obtain ⟨hopen, hfits⟩ := (hi (fd, .input)).inCall hpc nofun
    exact (hi.goto (p := .idle) hopen hfits fun _ he => he).opens h
  case h_3 hpc =>
    obtain ⟨hopen, hfits⟩ := (hi (fd, .input)).inCall hpc nofun
    exact (hi.goto (p := .idle) hopen hfits.1 fun _ he => he).opens h
  case h_4 => cases h

theorem Inv.look {k : K} {c : Site K B} (hi : Inv s) (hok : repeats s (.look (B := B) x k) = false)
    (h : look c s x k = some s') : Inv s' := by
  rw [Discipline.look] at h
  split at h
  case h_1 call hpc =>
    cases h
    refine hi.put ?_
    split
    case isTrue hasync =>
      refine (hi x).checkAsyncCompletion hpc ?_ _
      rw [repeats, hpc] at hok
      simpa [hasync] using hok
    case isFalse => exact (hi x).look hpc _
  case h_2 => cases h

theorem Inv.cleanupFD {fd : ℕ} (hi : Inv s) (h : cleanupFD s fd = some s') : Inv s' := by
  obtain ⟨⟨_, hidle⟩, h⟩ := Option.ite_none_right_eq_some.mp h
  cases h
  intro y
  show (if y.1 = fd then (s.entry y).reset else s.entry y).Inv
    (Function.update s.status fd .closing y.1)
  rcases eq_or_ne y.1 fd with hy | hne
  · rw [hy, if_pos rfl, Function.update_self]
    refine ⟨?_, rfl⟩
    have hpc := hidle y.2 (by cases y.2 <;> simp)
    rw [← hy] at hpc
    exact hpc
  · rw [if_neg hne, Function.update_of_ne hne]
    exact hi y

theorem Inv.close {fd : ℕ} (hi : Inv s) (h : close s fd = some s') : Inv s' := by
  obtain ⟨hclosing, h⟩ := Option.ite_none_right_eq_some.mp h
  cases h
  intro y
  show (if y.1 = fd then { s.entry y with reg := fun _ => none } else s.entry y).Inv
    (Function.update s.status fd .closed y.1)
  rcases eq_or_ne y.1 fd with hy | hne
  · have hiy := hi y
    rw [hy, hclosing] at hiy
    rw [hy, if_pos rfl, Function.update_self]
    exact ⟨hiy.1, hiy.2, fun _ => rfl⟩
  · rw [if_neg hne, Function.update_of_ne hne]
    exact hi y

end

theorem Inv.ready {d : Direction} {p : B} {ev : Event} (hi : Inv s)
    (h : ready s d p ev = some s') : Inv s' := by
  rw [Discipline.ready] at h
  split at h
  case h_1 => cases h
  case h_2 r hr =>
    obtain ⟨_, h⟩ := Option.ite_none_right_eq_some.mp h
    cases h
    exact hi.put ((hi (ev.fd, d)).fire hr)

theorem Inv.deliver {d : Direction} {p : B} (hi : Inv s) (h : deliver s d p = some s') : Inv s' := by
  rw [Discipline.deliver] at h
  split at h
  case h_1 => cases h
  case h_2 ev evs hevs =>
    cases h
    split
    · exact hi
    case h_2 y _ =>
      exact Inv.put (s := { s with events := _ }) hi ((hi y).congr rfl rfl rfl fun _ => rfl)

/-- STEP: every step keeps the invariant but a repeated `checkAsyncCompletion`. -/
theorem Inv.step {a : Action K B} (hi : Inv s) (hok : repeats s a = false)
    (h : step c s a = some s') : Inv s' := by
  cases a with
  | epollCreate ret => exact hi.opens h
  | socket ret blocking => exact hi.opens h
  | enter fd call => exact hi.enter h
  | attempt x r =>
    obtain ⟨e, he, rfl⟩ := Option.map_eq_some_iff.mp h
    exact hi.put ((hi x).attempt he)
  | accepted fd ret blocking => exact hi.accepted h
  | look x k => exact hi.look hok h
  | setupFD x =>
    obtain ⟨e, he, rfl⟩ := Option.map_eq_some_iff.mp h
    exact hi.put ((hi x).setupFD he)
  | P x ahead =>
    obtain ⟨e, he, rfl⟩ := Option.map_eq_some_iff.mp h
    exact hi.put ((hi x).P he)
  | resumption x =>
    obtain ⟨e, he, rfl⟩ := Option.map_eq_some_iff.mp h
    exact hi.put ((hi x).resumption he)
  | timer x =>
    obtain ⟨e, he, rfl⟩ := Option.map_eq_some_iff.mp h
    exact hi.put ((hi x).timer he)
  | cancel x =>
    obtain ⟨e, he, rfl⟩ := Option.map_eq_some_iff.mp h
    exact hi.put ((hi x).cancel he)
  | cleanupFD fd => exact hi.cleanupFD h
  | close fd => exact hi.close h
  | ready d p ev => exact hi.ready h
  | notifyOne d p => exact hi.deliver h

omit [DecidableEq B] in
/-- A repeated `checkAsyncCompletion` is about to create a registration that is there already, or
    leaves one behind with another poller. -/
theorem undisciplined_of_repeats {k : K} (hi : Inv s)
    (hbad : repeats s (.look (B := B) x k) = true) (h : look c s x k = some s') :
    ¬ Disciplined s' := by
  rw [repeats] at hbad
  rw [look] at h
  cases hpc : (s.entry x).pc with
  | looking call =>
    rw [hpc] at hbad h
    obtain ⟨hasync, hpoller⟩ := Bool.and_eq_true_iff.mp hbad
    obtain ⟨q, hq⟩ := Option.isSome_iff_exists.mp hpoller
    have hreg := (((hi x).inCall hpc nofun).2 q).mp hq
    simp only [hasync, if_true] at h
    cases h
    intro hd
    have hx := (hd x).create call (by simp [State.put, Entry.checkAsyncCompletion, Entry.goto]) q
    simp only [State.put, Function.update_self, Entry.checkAsyncCompletion, Entry.goto] at hx
    rw [hx] at hreg
    cases hreg
  | idle | direct _ | trying _ | creating _ | modifying _ | beforeP _ | inside _ | retrying _ =>
    rw [hpc] at hbad
    cases hbad

omit [DecidableEq B] in
theorem Inv.init : Inv (State.init : State B) := fun _ => ⟨rfl, rfl, fun _ => rfl⟩

/-- EXACTLY WHEN: the discipline is kept throughout the runs in which no `connect` is to be completed
    on a descriptor whose output side has a poller, and in no other. -/
theorem disciplined_iff (c : Site K B) (as : List (Action K B)) (s : State B)
    (h : exec (system c) State.init as = some s) :
    Along (system c) Disciplined State.init as ↔ Run (system c) (Avoids repeats) as s := by
  refine along_iff_run (I := Inv) (fun _ => Iff.rfl) Inv.init (fun s hi x => (hi x).disciplined)
    (fun s a s' hi hok hs => hi.step hok hs) (fun s a s' hi hs hd => ?_) h
  by_contra hbad
  have hbad : repeats s a = true := Bool.not_eq_false _ ▸ hbad
  cases a with
  | look x k => exact undisciplined_of_repeats hi hbad hs hd
  | epollCreate _ | socket _ _ | enter _ _ | attempt _ _ | accepted _ _ _ | setupFD _ | P _ _
  | resumption _ | timer _ | cancel _ | cleanupFD _ | close _ | ready _ _ _ | notifyOne _ _ =>
    cases hbad

/-! ### A descriptor that is connected twice -/

/-- Descriptor 3, with one poller. -/
def socketSite : Site Unit Unit := ⟨true, true, fun _ _ _ => ()⟩

/-- A `connect` that has to wait, up to its `setupFD`. -/
def connects : List (Action Unit Unit) :=
  [.enter 3 .connect, .attempt (3, .output) .einprogress, .look (3, .output) ()]

/-- Its wait for the event of a connection, and its return. -/
def completes : List (Action Unit Unit) :=
  [.setupFD (3, .output), .P (3, .output) true, .ready .output () ⟨3, EPOLLOUT⟩,
    .notifyOne .output (), .resumption (3, .output), .attempt (3, .output) .final]

/-- WRONG: the association is dissolved, by a `connect` that does not wait, and made again: `Create`
    of a registered descriptor, which fails. -/
theorem connect_repeated : ∃ s, exec (system socketSite) State.init
      (.socket 3 true :: connects ++ completes ++
        [.enter 3 .connect, .attempt (3, .output) .final] ++ connects) = some s ∧
    step socketSite s (.setupFD (3, .output)) = none ∧
    ¬ Along (system socketSite) Disciplined State.init
      (.socket 3 true :: connects ++ completes ++
        [.enter 3 .connect, .attempt (3, .output) .final] ++ connects) := by
  set as : List (Action Unit Unit) := .socket 3 true :: connects ++ completes ++
    [.enter 3 .connect, .attempt (3, .output) .final] ++ connects with has
  have htest : (exec (system socketSite) State.init as).map (fun s =>
      decide ((s.entry (3, .output)).pc = .creating .connect) &&
      ((s.entry (3, .output)).reg ()).isSome &&
      (step socketSite s (.setupFD (3, .output))).isNone) = some true := by decide
  obtain ⟨s, hs, hp⟩ := Option.map_eq_some_iff.mp htest
  simp only [Bool.and_eq_true, decide_eq_true_iff] at hp
  obtain ⟨⟨hpc, hreg⟩, hnone⟩ := hp
  refine ⟨s, hs, Option.isNone_iff_eq_none.mp hnone, fun hall => ?_⟩
  have hcreate := ((hall.last hs) (3, .output)).create .connect hpc ()
  rw [hcreate] at hreg
  cases hreg

/-- It is closed in between. -/
theorem disciplined_iff_reused : Along (system socketSite) Disciplined State.init
    (.socket 3 true :: connects ++ completes ++ [.cleanupFD 3, .close 3] ++
      .socket 3 true :: connects ++ completes) := by
  obtain ⟨s, hrun, _⟩ := run_of_execAvoiding (system socketSite) repeats State.init
    (.socket 3 true :: connects ++ completes ++ [.cleanupFD 3, .close 3] ++
      .socket 3 true :: connects ++ completes) (fun _ => true) rfl (by decide)
  exact (disciplined_iff socketSite _ s (hrun.exec fun _ hs => hs)).mpr hrun

end Libfibre.EventScope.Discipline
