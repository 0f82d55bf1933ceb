import Libfibre.EventScope.Dispatch
import Libfibre.Semaphore.SoleWaiter
import Mathlib.Data.List.Count

/-! `PollerFibre` and the master poller (`Poller.cc`, `EventScope.h`): the poller of a cluster is a fibre
    that looks at its epoll set without blocking and, when it finds nothing for `SpinMax` times,
    sleeps on the semaphore of its own descriptor, which the master poller's thread watches with a
    one-shot registration. Each look, each delivery, each `setupFD`, each section of the semaphore is
    one step; the kernel makes events, and takes them back, at any time.

        head ─▶ polling ─(events)─▶ notifying ─▶ yielding ─▶ head
         │         │ none            (spin < SpinMax) ─▶ yielding
         │         └────────────────▶ modifying ─▶ beforeP ─▶ inside ─▶ head
         └─(pollTerminate)─▶ terminated

    The destructor sets `pollTerminate`, opens the semaphore and joins the fibre. -/

namespace Libfibre.EventScope.PollerFibre
open Transition LockedSemaphore BlockingQueue

/-- How many events one call of `epoll_wait` fetches. -/
def MaxPoll : ℕ := 256

/-- Where the poller fibre is. -/
inductive Pc where
  | created
  | registering                -- `registerPollFD`
  | head                       -- before the test of `pollTerminate`
  | polling                    -- before `doPoll`
  | notifying (rest : List Event)
  | yielding
  | modifying                  -- `blockPollFD`, before `setupFD`
  | beforeP
  | inside                     -- in `sync.P`
  | terminated
  deriving DecidableEq

/-- Where the destructor is. -/
inductive Destructor where
  | idle
  | flagged                    -- `pollTerminate` is set
  | signalled                  -- after `unblockPollFD`, in `delete pollFibre`
  | joined
  deriving DecidableEq

/-- What the master poller knows of the poller's descriptor. -/
inductive Registration where
  | absent
  | disarmed
  | armed
  deriving DecidableEq

/-- The poller's fibre, its epoll set and that of the master poller. -/
structure State where
  pc : Pc
  spin : ℕ
  pollTerminate : Bool
  ready : List Event                 -- events of the poller's epoll set, not yet fetched
  reg : Registration
  fetched : Bool                     -- the master poller has an event of the poller's descriptor
  sem : LockedSemaphore.State Unit   -- `fdSyncVector[pollFD].sync[true]`
  destructor : Destructor

/-- The fibre, the kernel, the master poller or whoever ends the poller takes a step. -/
inductive Action where
  | start
  | register
  | test
  | doPoll (eintr : Bool)
  | notify (ev : Event)
  | notified
  | resumeYield
  | modify
  | P
  | resumption
  | masterPoll
  | masterNotify
  | arrive (ev : Event)
  | vanish (ev : Event)
  | flag
  | unblockPollFD
  | join
  deriving DecidableEq

/-- The fibre goes to another place in its loop. -/
def State.goto (s : State) (p : Pc) : State := { s with pc := p }

/-- `sync[true].V()`. -/
def State.post (s : State) : State := { s with sem := (V true s.sem).1 }

/-- `doPoll<false>` and the branch on its result. -/
def doPoll (SpinMax : ℕ) (s : State) (eintr : Bool) : State :=
  match if eintr then [] else s.ready.take MaxPoll with
  | ev :: evs => State.goto { s with ready := s.ready.drop MaxPoll } (.notifying (ev :: evs))
  | [] =>
    if SpinMax ≤ s.spin then State.goto { s with spin := 1 } .modifying
    else State.goto { s with spin := s.spin + 1 } .yielding

/-- `sync[true].P()`. -/
def stepP (s : State) : State :=
  match internalP s.sem () (.wait true) with
  | (sem, none) => State.goto { s with sem := sem } .inside
  | (sem, some _) => State.goto { s with sem := sem } .head

/-- One step; `SpinMax` is how often the fibre polls in vain before it sleeps. -/
def step (SpinMax : ℕ) (s : State) : Action → Option State
  | .start => if s.pc = .created then some (s.goto .registering) else none
  | .register =>
    if s.pc = .registering then some (State.goto { s with reg := .armed } .head) else none
  | .test =>
    if s.pc = .head then some (s.goto (if s.pollTerminate then .terminated else .polling)) else none
  | .doPoll eintr => if s.pc = .polling then some (doPoll SpinMax s eintr) else none
  | .notify ev =>
    match s.pc with
    | .notifying (e :: rest) => if e = ev then some (s.goto (.notifying rest)) else none
    | _ => none
  | .notified =>
    if s.pc = .notifying [] then some (State.goto { s with spin := 1 } .yielding) else none
  | .resumeYield => if s.pc = .yielding then some (s.goto .head) else none
  | .modify =>
    if s.pc = .modifying then some (State.goto { s with reg := .armed } .beforeP) else none
  | .P => if s.pc = .beforeP then some (stepP s) else none
  | .resumption =>
    (LockedSemaphore.resumption s.sem ()).map fun sem => State.goto { s with sem := sem } .head
  | .masterPoll =>
    -- `epoll_wait`: the poller's descriptor is ready if its own epoll set is
    if s.reg = .armed ∧ s.ready ≠ [] ∧ s.fetched = false then
      some { s with reg := .disarmed, fetched := true }
    else none
  | .masterNotify => if s.fetched then some (State.post { s with fetched := false }) else none
  | .arrive ev => some { s with ready := s.ready ++ [ev] }
  | .vanish ev => if ev ∈ s.ready then some { s with ready := s.ready.erase ev } else none
  | .flag =>
    if s.destructor = .idle then some { s with pollTerminate := true, destructor := .flagged } else none
  | .unblockPollFD =>
    if s.destructor = .flagged then some (State.post { s with destructor := .signalled }) else none
  | .join =>
    if s.destructor = .signalled ∧ s.pc = .terminated then some { s with destructor := .joined }
    else none

/-- The fibre has been created and has not run. -/
def State.init : State := ⟨.created, 1, false, [], .absent, false, LockedSemaphore.start 0, .idle⟩

/-- All interleavings. -/
def system (SpinMax : ℕ) : System State Action := ⟨fun s => s = .init, step SpinMax⟩

/-! ### The invariant -/

/-- Asleep in `sync.P`. -/
def State.asleep (s : State) : Prop := s.sem.pc () = .blocked false

/-- On the way to `sync.P`, past the test of `pollTerminate`. -/
def Pc.comes : Pc → Bool
  | .polling | .modifying | .beforeP => true
  | _ => false

/-- The destructor has opened the semaphore. -/
def Destructor.stops : Destructor → Bool
  | .signalled | .joined => true
  | _ => false

/-- The semaphore agrees with where the fibre is. -/
structure Places (s : State) : Prop where
  queues : Queues s.sem
  inside : s.sem.pc () ≠ .out ↔ s.pc = .inside
  untimed : s.sem.pc () = .out ∨ s.asleep ∨ s.sem.pc () = .granted
  closed : s.asleep → s.sem.counter < 1

/-- INVARIANT: the fibre sleeps, or is about to, only with an event of its descriptor still to come or the
    semaphore open, and not at all once the destructor has opened it. -/
structure Inv (s : State) : Prop extends Places s where
  coming : s.asleep ∨ s.pc = .beforeP → s.reg = .armed ∨ s.fetched = true ∨ 1 ≤ s.sem.counter
  flagged : s.pollTerminate = true ↔ s.destructor ≠ .idle
  stops : s.destructor.stops = true → ¬ s.asleep ∧ (s.pc.comes = true → 1 ≤ s.sem.counter)

variable {SpinMax : ℕ} {s s' t : State} {a : Action} {p : Pc}

theorem init_inv : Inv State.init where
  queues := queues_start 0
  inside := iff_of_false (fun h => h rfl) nofun
  untimed := .inl rfl
  closed h := by cases h
  coming h := by rcases h with h | h <;> cases h
  flagged := iff_of_false nofun fun h => h rfl
  stops h := by cases h

theorem Places.out (h : Places s) (hpc : s.pc ≠ .inside) : s.sem.pc () = .out := by
  by_contra hne
  exact hpc (h.inside.mp hne)

/-- The fibre moves, and is not in `sync.P` before or after. -/
theorem Inv.goto (h : Inv s) (p : Pc) (hpc : s.pc ≠ .inside) (hp : p ≠ .inside) (hsem : s'.sem = s.sem)
    (hpc' : s'.pc = p) (hflag : s'.pollTerminate = s.pollTerminate)
    (hdestructor : s'.destructor = s.destructor)
    (hcoming : p = .beforeP → s'.reg = .armed ∨ s'.fetched = true ∨ 1 ≤ s'.sem.counter)
    (hcomes : p.comes = true → s.destructor.stops = true → s.pc.comes = true) : Inv s' := by
  have hout := h.out hpc
  have hawake : ¬ s'.asleep := by
    rw [State.asleep, hsem, hout]
    nofun
  refine ⟨⟨hsem ▸ h.queues, ?_, .inl (hsem ▸ hout), fun hs => absurd hs hawake⟩, fun hc => ?_, ?_,
    fun hs => ⟨hawake, fun hc => ?_⟩⟩
  · rw [hsem, hpc', hout]
    exact iff_of_false (fun hne => hne rfl) hp
  · exact hcoming (hpc' ▸ hc.resolve_left hawake)
  · rw [hflag, hdestructor]
    exact h.flagged
  · rw [hdestructor] at hs
    rw [hpc'] at hc
    rw [hsem]
    exact (h.stops hs).2 (hcomes hc hs)

/-- The kernel and the master poller move. -/
theorem Inv.outside (h : Inv s) (hsem : s'.sem = s.sem) (hpc : s'.pc = s.pc)
    (hflag : s'.pollTerminate = s.pollTerminate) (hdestructor : s'.destructor = s.destructor)
    (hcoming : s.reg = .armed ∨ s.fetched = true → s'.reg = .armed ∨ s'.fetched = true) : Inv s' := by
  have hasleep : s'.asleep ↔ s.asleep := by rw [State.asleep, State.asleep, hsem]
  refine ⟨⟨hsem ▸ h.queues, by rw [hsem, hpc]; exact h.inside, ?_, fun hs => ?_⟩, fun hc => ?_,
    by rw [hflag, hdestructor]; exact h.flagged, fun hs => ?_⟩
  · rw [hasleep, hsem]
    exact h.untimed
  · rw [hsem]
    exact h.closed (hasleep.mp hs)
  · rw [hasleep, hpc] at hc
    rw [hsem]
    rcases h.coming hc with harmed | hfetched | hopen
    · exact (hcoming (.inl harmed)).imp_right .inl
    · exact (hcoming (.inr hfetched)).imp_right .inl
    · exact .inr (.inr hopen)
  · rw [hasleep, hpc, hsem]
    exact h.stops (hdestructor ▸ hs)

theorem Places.sole (h : Places s) : Sole s.sem := ⟨h.queues, h.untimed, h.closed⟩

/-- A `V` leaves the fibre awake, and the semaphore open if it is on its way there. -/
theorem Places.post (h : Places s) (hflagged : s.pollTerminate = true ↔ s.destructor ≠ .idle) :
    Inv s.post := by
  rcases h.sole.V with ⟨hsleep, hsole, hgranted⟩ | ⟨hawake, hopen⟩
  · have hinside : s.pc = .inside := h.inside.mp (by rw [hsleep]; nofun)
    have hnot : ¬ s.post.asleep := fun hs => LockedSemaphore.State.asleep.ne_granted hs hgranted
    have hin : (V true s.sem).1.pc () ≠ .out := by
      rw [hgranted]
      nofun
    refine ⟨⟨hsole.queues, iff_of_true hin hinside, hsole.untimed, hsole.closed⟩, fun hc => ?_, hflagged,
      fun _ => ⟨hnot, fun hc => ?_⟩⟩
    · have hbefore : s.pc = .beforeP := hc.resolve_left hnot
      rw [hinside] at hbefore
      cases hbefore
    · have hcomes : s.pc.comes = true := hc
      rw [hinside] at hcomes
      cases hcomes
  · have hpost : s.post = { s with sem := s.sem.setCounter 1 } := by rw [State.post, hopen]
    rw [hpost]
    have hone : 1 ≤ (s.sem.setCounter 1).counter := le_refl _
    exact ⟨⟨h.queues.setCounter 1, h.inside, h.untimed, fun hs => absurd hs hawake⟩,
      fun _ => .inr (.inr hone), hflagged, fun _ => ⟨hawake, fun _ => hone⟩⟩

/-- `P` takes the permit, or the fibre falls asleep. -/
theorem Inv.stepP (h : Inv s) (hpc : s.pc = .beforeP) : Inv (stepP s) := by
  have hout := h.out (by rw [hpc]; nofun)
  rw [PollerFibre.stepP]
  rcases h.sole.internalP hout with ⟨-, sem, hP, hsole, hsleep, hcounter⟩ | ⟨-, hP⟩
  · rw [hP]
    refine ⟨⟨hsole.queues, iff_of_true hsleep.ne_out rfl, hsole.untimed, hsole.closed⟩,
      fun _ => ?_, h.flagged,
      fun hs => ?_⟩
    · have hcoming := h.coming (.inr hpc)
      rw [← hcounter] at hcoming
      exact hcoming
    · have hopen := (h.stops hs).2 (by rw [hpc]; rfl)
      have hclosed := hsole.closed hsleep
      omega
  · rw [hP]
    have hawake : ¬ s.asleep := fun hs => LockedSemaphore.State.asleep.ne_out hs hout
    refine ⟨⟨h.queues.setCounter _, iff_of_false (fun hne => hne hout) nofun, .inl hout,
      fun hs => absurd hs hawake⟩, fun hc => ?_, h.flagged, fun _ => ⟨hawake, nofun⟩⟩
    rcases hc with hs | hs
    · exact absurd hs hawake
    · cases hs

/-- The outcomes of a look at the epoll set. -/
theorem doPoll_cases (SpinMax : ℕ) (s : State) (eintr : Bool) :
    (∃ ev evs, eintr = false ∧ s.ready.take MaxPoll = ev :: evs ∧ doPoll SpinMax s eintr
      = State.goto { s with ready := s.ready.drop MaxPoll } (.notifying (ev :: evs))) ∨
    doPoll SpinMax s eintr = State.goto { s with spin := 1 } .modifying ∨
    doPoll SpinMax s eintr = State.goto { s with spin := s.spin + 1 } .yielding := by
  rw [doPoll]
  split
  · rename_i ev evs hev
    cases eintr with
    | true => cases hev
    | false => exact .inl ⟨ev, evs, rfl, hev, rfl⟩
  · split
    · exact .inr (.inl rfl)
    · exact .inr (.inr rfl)

/-- STEP: every step keeps the invariant. -/
theorem Inv.step (h : Inv s) (hs : step SpinMax s a = some s') : Inv s' := by
  cases a with
  | start =>
    obtain ⟨hpc, hs⟩ := Option.ite_none_right_eq_some.mp hs
    obtain rfl := Option.some.inj hs
    exact h.goto .registering (by rw [hpc]; nofun) nofun rfl rfl rfl rfl nofun nofun
  | register =>
    obtain ⟨hpc, hs⟩ := Option.ite_none_right_eq_some.mp hs
    obtain rfl := Option.some.inj hs
    exact h.goto .head (by rw [hpc]; nofun) nofun rfl rfl rfl rfl nofun nofun
  | test =>
    obtain ⟨hpc, hs⟩ := Option.ite_none_right_eq_some.mp hs
    obtain rfl := Option.some.inj hs
    cases hflag : s.pollTerminate with
    | true => exact h.goto .terminated (by rw [hpc]; nofun) nofun rfl rfl rfl rfl nofun nofun
    | false =>
      refine h.goto .polling (by rw [hpc]; nofun) nofun rfl rfl rfl rfl nofun fun _ hstops => ?_
      -- whoever has opened the semaphore has set the flag before
      have hset := h.flagged.mpr fun hidle => by
        rw [hidle] at hstops
        cases hstops
      rw [hflag] at hset
      cases hset
  | doPoll eintr =>
    obtain ⟨hpc, hs⟩ := Option.ite_none_right_eq_some.mp hs
    obtain rfl := Option.some.inj hs
    have hout : s.pc ≠ .inside := by rw [hpc]; nofun
    rcases doPoll_cases SpinMax s eintr with ⟨ev, evs, -, -, hpoll⟩ | hpoll | hpoll
    · rw [hpoll]
      exact h.goto (.notifying (ev :: evs)) hout nofun rfl rfl rfl rfl nofun nofun
    · rw [hpoll]
      exact h.goto .modifying hout nofun rfl rfl rfl rfl nofun fun _ _ => by rw [hpc]; rfl
    · rw [hpoll]
      exact h.goto .yielding hout nofun rfl rfl rfl rfl nofun nofun
  | notify ev =>
    rw [PollerFibre.step] at hs
    split at hs
    · rename_i e rest hpc
      obtain ⟨-, hs⟩ := Option.ite_none_right_eq_some.mp hs
      obtain rfl := Option.some.inj hs
      exact h.goto (.notifying rest) (by rw [hpc]; nofun) nofun rfl rfl rfl rfl nofun nofun
    · cases hs
  | notified =>
    obtain ⟨hpc, hs⟩ := Option.ite_none_right_eq_some.mp hs
    obtain rfl := Option.some.inj hs
    exact h.goto .yielding (by rw [hpc]; nofun) nofun rfl rfl rfl rfl nofun nofun
  | resumeYield =>
    obtain ⟨hpc, hs⟩ := Option.ite_none_right_eq_some.mp hs
    obtain rfl := Option.some.inj hs
    exact h.goto .head (by rw [hpc]; nofun) nofun rfl rfl rfl rfl nofun nofun
  | modify =>
    obtain ⟨hpc, hs⟩ := Option.ite_none_right_eq_some.mp hs
    obtain rfl := Option.some.inj hs
    exact h.goto .beforeP (by rw [hpc]; nofun) nofun rfl rfl rfl rfl (fun _ => .inl rfl)
      fun _ _ => by rw [hpc]; rfl
  | P =>
    obtain ⟨hpc, hs⟩ := Option.ite_none_right_eq_some.mp hs
    obtain rfl := Option.some.inj hs
    exact h.stepP hpc
  | resumption =>
    obtain ⟨sem, hsem, hs⟩ := Option.map_eq_some_iff.mp hs
    subst hs
    obtain ⟨-, hsole, hout, -⟩ := h.sole.resumption hsem
    have hawake : ¬ sem.asleep := fun hs => hs.ne_out hout
    refine ⟨⟨hsole.queues, iff_of_false (fun hne => hne hout) nofun, hsole.untimed, hsole.closed⟩,
      fun hc => ?_,
      h.flagged, fun _ => ⟨hawake, nofun⟩⟩
    rcases hc with hs | hs
    · exact absurd hs hawake
    · cases hs
  | masterPoll =>
    obtain ⟨-, hs⟩ := Option.ite_none_right_eq_some.mp hs
    obtain rfl := Option.some.inj hs
    exact h.outside rfl rfl rfl rfl fun _ => .inr rfl
  | masterNotify =>
    obtain ⟨-, hs⟩ := Option.ite_none_right_eq_some.mp hs
    obtain rfl := Option.some.inj hs
    -- the event that is no longer in hand is made up for by the `V`
    exact Places.post ⟨h.queues, h.inside, h.untimed, h.closed⟩ h.flagged
  | arrive ev =>
    obtain rfl := Option.some.inj hs
    exact h.outside rfl rfl rfl rfl id
  | vanish ev =>
    obtain ⟨-, hs⟩ := Option.ite_none_right_eq_some.mp hs
    obtain rfl := Option.some.inj hs
    exact h.outside rfl rfl rfl rfl id
  | flag =>
    obtain ⟨hidle, hs⟩ := Option.ite_none_right_eq_some.mp hs
    obtain rfl := Option.some.inj hs
    exact ⟨⟨h.queues, h.inside, h.untimed, h.closed⟩, h.coming, iff_of_true rfl nofun, nofun⟩
  | unblockPollFD =>
    obtain ⟨hflagged, hs⟩ := Option.ite_none_right_eq_some.mp hs
    obtain rfl := Option.some.inj hs
    exact Places.post ⟨h.queues, h.inside, h.untimed, h.closed⟩
      (iff_of_true (h.flagged.mpr (by rw [hflagged]; nofun)) nofun)
  | join =>
    obtain ⟨⟨hsig, hpc⟩, hs⟩ := Option.ite_none_right_eq_some.mp hs
    obtain rfl := Option.some.inj hs
    have hstops := h.stops (by rw [hsig]; rfl)
    exact ⟨⟨h.queues, h.inside, h.untimed, h.closed⟩, h.coming,
      iff_of_true (h.flagged.mpr (by rw [hsig]; nofun)) nofun, fun _ => hstops⟩

theorem inv_of_exec {as : List Action} (he : exec (system SpinMax) .init as = some t) : Inv t :=
  inv_exec (fun _ _ _ hi hs => hi.step hs) init_inv he

/-! ### Events -/

/-- The events that the fibre has fetched and not yet delivered. -/
def Pc.held : Pc → List Event
  | .notifying rest => rest
  | _ => []

/-- The steps of the master poller. -/
def Action.masters : Action → Bool
  | .masterPoll | .masterNotify => true
  | _ => false

/-- `ev` is made, or no longer there to be fetched. -/
def arrives (ev : Event) (_ : State) (a : Action) : Bool := decide (a = .arrive ev)

/-- The event is notified, or what it tells of is gone. -/
def settles (ev : Event) (_ : State) (a : Action) : Bool := decide (a = .notify ev ∨ a = .vanish ev)

/-- How often the event is about. -/
def State.unsettled (s : State) (ev : Event) : ℕ := (s.pc.held ++ s.ready).count ev

theorem unsettled_congr {ev : Event} (hheld : s'.pc.held = s.pc.held) (hready : s'.ready = s.ready) :
    s'.unsettled ev = s.unsettled ev := by
  rw [State.unsettled, State.unsettled, hheld, hready]

/-- STEP: an event that is made stays until it is delivered or taken back. -/
theorem unsettled_step {ev : Event} (h : Inv s) (hs : step SpinMax s a = some s') :
    (if arrives ev s a then 1 else 0) + s.unsettled ev =
      (if settles ev s a then 1 else 0) + s'.unsettled ev := by
  have hquiet : s'.unsettled ev = s.unsettled ev → arrives ev s a = false → settles ev s a = false →
      (if arrives ev s a then 1 else 0) + s.unsettled ev
        = (if settles ev s a then 1 else 0) + s'.unsettled ev := by
    intro hopen harrives hsettles
    rw [hopen, harrives, hsettles]
  cases a with
  | start | register | notified | resumeYield | modify =>
    obtain ⟨hpc, hs⟩ := Option.ite_none_right_eq_some.mp hs
    obtain rfl := Option.some.inj hs
    exact hquiet (unsettled_congr (by rw [hpc]; rfl) rfl) rfl rfl
  | test =>
    obtain ⟨hpc, hs⟩ := Option.ite_none_right_eq_some.mp hs
    obtain rfl := Option.some.inj hs
    refine hquiet (unsettled_congr ?_ rfl) rfl rfl
    rw [hpc, State.goto]
    cases s.pollTerminate <;> rfl
  | doPoll eintr =>
    obtain ⟨hpc, hs⟩ := Option.ite_none_right_eq_some.mp hs
    obtain rfl := Option.some.inj hs
    rcases doPoll_cases SpinMax s eintr with ⟨e, evs, -, hev, hpoll⟩ | hpoll | hpoll
    · refine hquiet ?_ rfl rfl
      rw [hpoll, State.unsettled, State.unsettled, hpc]
      show ((e :: evs) ++ s.ready.drop MaxPoll).count ev = ([] ++ s.ready).count ev
      rw [← hev, List.take_append_drop, List.nil_append]
    · exact hquiet (unsettled_congr (by rw [hpoll, hpc]; rfl) (by rw [hpoll]; rfl)) rfl rfl
    · exact hquiet (unsettled_congr (by rw [hpoll, hpc]; rfl) (by rw [hpoll]; rfl)) rfl rfl
  | notify e =>
    rw [PollerFibre.step] at hs
    split at hs
    · rename_i e' rest hpc
      obtain ⟨he, hs⟩ := Option.ite_none_right_eq_some.mp hs
      obtain rfl := Option.some.inj hs
      rw [State.unsettled, State.unsettled, hpc]
      show 0 + (e' :: (rest ++ s.ready)).count ev = _ + (rest ++ s.ready).count ev
      rw [List.count_cons, Nat.zero_add, Nat.add_comm, he]
      by_cases hev : e = ev
      · simp [settles, hev]
      · simp [settles, hev]
    · cases hs
  | P =>
    obtain ⟨hpc, hs⟩ := Option.ite_none_right_eq_some.mp hs
    obtain rfl := Option.some.inj hs
    refine hquiet ?_ rfl rfl
    rw [PollerFibre.stepP]
    split
    · exact unsettled_congr (by rw [hpc]; rfl) rfl
    · exact unsettled_congr (by rw [hpc]; rfl) rfl
  | resumption =>
    obtain ⟨sem, hsem, hs⟩ := Option.map_eq_some_iff.mp hs
    obtain ⟨hgranted, rfl⟩ := resumption_some hsem
    subst hs
    have hpc := h.inside.mp (by rw [hgranted]; nofun)
    exact hquiet (unsettled_congr (by rw [hpc]; rfl) rfl) rfl rfl
  | masterPoll =>
    obtain ⟨-, hs⟩ := Option.ite_none_right_eq_some.mp hs
    obtain rfl := Option.some.inj hs
    exact hquiet (unsettled_congr rfl rfl) rfl rfl
  | masterNotify | flag | unblockPollFD | join =>
    obtain ⟨-, hs⟩ := Option.ite_none_right_eq_some.mp hs
    obtain rfl := Option.some.inj hs
    exact hquiet (unsettled_congr rfl rfl) rfl rfl
  | arrive e =>
    obtain rfl := Option.some.inj hs
    show _ = 0 + (s.pc.held ++ (s.ready ++ [e])).count ev
    rw [← List.append_assoc, List.count_append, State.unsettled, Nat.zero_add, Nat.add_comm]
    refine congrArg _ ?_
    by_cases hev : e = ev
    · simp [arrives, hev]
    · simp [arrives, hev]
  | vanish e =>
    obtain ⟨hmem, hs⟩ := Option.ite_none_right_eq_some.mp hs
    obtain rfl := Option.some.inj hs
    show 0 + (s.pc.held ++ s.ready).count ev = _ + (s.pc.held ++ s.ready.erase e).count ev
    rw [List.count_append, List.count_append]
    by_cases hev : e = ev
    · subst hev
      have hpos := List.count_pos_iff.mpr hmem
      simp only [settles, or_true, decide_true, if_true, List.count_erase_self]
      omega
    · rw [List.count_erase_of_ne (Ne.symm hev)]
      simp [settles, hev]

/-- The master poller wakes a fibre that sleeps on an event. -/
theorem wake (h : Inv s) (hsleep : s.asleep) (hready : s.ready ≠ []) :
    ∃ as u, as.length ≤ 2 ∧ (∀ b ∈ as, b.masters = true) ∧
      exec (system SpinMax) s as = some u ∧ u.sem.pc () = .granted := by
  -- the delivery, from a state in which the event is in hand
  have hnotify : ∀ v : State, Places v → v.asleep → v.fetched = true → ∃ u,
      step SpinMax v .masterNotify = some u ∧ u.sem.pc () = .granted := by
    intro v hv hvsleep hfetched
    have hv' : Places { v with fetched := false } := ⟨hv.queues, hv.inside, hv.untimed, hv.closed⟩
    rcases hv'.sole.V with ⟨-, -, hgranted⟩ | ⟨hawake, -⟩
    · exact ⟨_, if_pos hfetched, hgranted⟩
    · exact absurd hvsleep hawake
  cases hfetched : s.fetched with
  | true =>
    obtain ⟨u, hu, hgranted⟩ := hnotify s h.toPlaces hsleep hfetched
    exact ⟨[.masterNotify], u, by decide, by simp [Action.masters],
      (exec_concat (exec_nil (M := system SpinMax) s) .masterNotify).trans hu, hgranted⟩
  | false =>
    have harmed : s.reg = .armed := by
      rcases h.coming (.inl hsleep) with harmed | hf | hopen
      · exact harmed
      · rw [hfetched] at hf
        cases hf
      · have := h.closed hsleep
        omega
    have hpoll : step SpinMax s .masterPoll = some { s with reg := .disarmed, fetched := true } :=
      if_pos ⟨harmed, hready, hfetched⟩
    obtain ⟨u, hu, hgranted⟩ := hnotify { s with reg := .disarmed, fetched := true }
      ⟨h.queues, h.inside, h.untimed, h.closed⟩ hsleep rfl
    have hone : exec (system SpinMax) s [.masterPoll] = some { s with reg := .disarmed, fetched := true } :=
      (exec_concat (exec_nil (M := system SpinMax) s) .masterPoll).trans hpoll
    exact ⟨[.masterPoll, .masterNotify], u, by decide, by simp [Action.masters],
      (exec_concat hone .masterNotify).trans hu, hgranted⟩

/-- RUN: every event is delivered once, or taken back, or still to be fetched or delivered; and while events
    are to be fetched the fibre is awake, or the master poller's next steps wake it. -/
theorem poller_fibre {as : List Action} (he : exec (system SpinMax) .init as = some t) :
    (∀ ev, times (system SpinMax) (arrives ev) .init as
      = times (system SpinMax) (settles ev) .init as + (t.pc.held ++ t.ready).count ev) ∧
    (t.asleep → t.pc.held = [] ∧ (t.ready ≠ [] → ∃ bs u, bs.length ≤ 2 ∧
      (∀ b ∈ bs, b.masters = true) ∧ exec (system SpinMax) t bs = some u ∧
      u.sem.pc () = .granted)) := by
  have h := inv_of_exec he
  refine ⟨fun ev => ?_, fun hsleep => ⟨?_, fun hready => wake h hsleep hready⟩⟩
  · exact times_balance (μ := fun s : State => s.unsettled ev) (fun _ _ _ hi hs => Inv.step hi hs)
      (fun _ _ _ hi hs => unsettled_step hi hs) init_inv he
  · rw [h.inside.mp (by rw [hsleep]; nofun)]
    rfl

/-- The fibre sleeps, an event arrives, and the master poller has fetched the descriptor's event. -/
theorem poller_fibre_wakes : ∃ (as : List Action) (t : State),
    exec (system 1) .init as = some t ∧ (t.sem.pc () = .blocked false ∧ t.ready = [⟨7, EPOLLIN⟩]) ∧
    (∀ ev, times (system 1) (arrives ev) .init as
      = times (system 1) (settles ev) .init as + (t.pc.held ++ t.ready).count ev) ∧
    (t.asleep → t.pc.held = [] ∧ (t.ready ≠ [] → ∃ bs u, bs.length ≤ 2 ∧
      (∀ b ∈ bs, b.masters = true) ∧ exec (system 1) t bs = some u ∧ u.sem.pc () = .granted)) := by
  have hrun : (exec (system 1) .init [.start, .register, .arrive ⟨5, EPOLLIN⟩, .test, .doPoll false,
      .notify ⟨5, EPOLLIN⟩, .notified, .resumeYield, .test, .doPoll false, .modify, .P,
      .arrive ⟨7, EPOLLIN⟩, .masterPoll]).map
      (fun t => decide (t.sem.pc () = .blocked false ∧ t.ready = [⟨7, EPOLLIN⟩])) = some true := by
    decide
  obtain ⟨t, he, hp⟩ := Option.map_eq_some_iff.mp hrun
  exact ⟨_, t, he, of_decide_eq_true hp, poller_fibre he⟩

/-! ### Termination -/

/-- The steps of the fibre itself. -/
def Action.own : Action → Bool
  | .start | .register | .test | .doPoll _ | .notify _ | .notified | .resumeYield | .modify | .P
  | .resumption => true
  | _ => false

/-- How many steps are left to a fibre that is to terminate: a full batch of events at most. -/
def Pc.left : Pc → ℕ
  | .created => 3
  | .registering | .yielding | .inside | .beforeP => 2
  | .head => 1
  | .polling => MaxPoll + 4
  | .notifying rest => rest.length + 3
  | .modifying => 3
  | .terminated => 0

/-- STEP: once the semaphore has been opened, each step of the fibre brings it nearer to its end. -/
theorem left_step (h : Inv s) (hstops : s.destructor.stops = true) (hs : step SpinMax s a = some s') :
    (if a.own then 1 else 0) + s'.pc.left ≤ s.pc.left ∧ s'.destructor.stops = true := by
  cases a with
  | start | register | notified | resumeYield | modify =>
    obtain ⟨hpc, hs⟩ := Option.ite_none_right_eq_some.mp hs
    obtain rfl := Option.some.inj hs
    exact ⟨by rw [hpc]; exact Nat.le_of_ble_eq_true rfl, hstops⟩
  | test =>
    obtain ⟨hpc, hs⟩ := Option.ite_none_right_eq_some.mp hs
    obtain rfl := Option.some.inj hs
    have hflag := h.flagged.mpr fun hidle => by
      rw [hidle] at hstops
      cases hstops
    exact ⟨by rw [hpc, hflag]; exact Nat.le_of_ble_eq_true rfl, hstops⟩
  | doPoll eintr =>
    obtain ⟨hpc, hs⟩ := Option.ite_none_right_eq_some.mp hs
    obtain rfl := Option.some.inj hs
    rw [hpc]
    rcases doPoll_cases SpinMax s eintr with ⟨ev, evs, -, hev, hpoll⟩ | hpoll | hpoll
    · have hlen : (ev :: evs).length ≤ MaxPoll := by
        rw [← hev]
        exact List.length_take_le ..
      rw [hpoll]
      refine ⟨?_, hstops⟩
      show 1 + ((ev :: evs).length + 3) ≤ MaxPoll + 4
      omega
    · rw [hpoll]
      exact ⟨Nat.le_of_ble_eq_true rfl, hstops⟩
    · rw [hpoll]
      exact ⟨Nat.le_of_ble_eq_true rfl, hstops⟩
  | notify ev =>
    rw [PollerFibre.step] at hs
    split at hs
    · rename_i e rest hpc
      obtain ⟨-, hs⟩ := Option.ite_none_right_eq_some.mp hs
      obtain rfl := Option.some.inj hs
      rw [hpc]
      exact ⟨(Nat.add_comm ..).le, hstops⟩
    · cases hs
  | P =>
    obtain ⟨hpc, hs⟩ := Option.ite_none_right_eq_some.mp hs
    obtain rfl := Option.some.inj hs
    have hopen := (h.stops hstops).2 (by rw [hpc]; rfl)
    rcases internalP_cases s.sem () (.wait true) with ⟨hc, -, -⟩ | ⟨-, hb, -⟩ | ⟨-, hP⟩
    · omega
    · cases hb
    · rw [PollerFibre.stepP, hP, hpc]
      exact ⟨Nat.le_of_ble_eq_true rfl, hstops⟩
  | resumption =>
    obtain ⟨sem, hsem, hs⟩ := Option.map_eq_some_iff.mp hs
    obtain ⟨hgranted, rfl⟩ := resumption_some hsem
    subst hs
    rw [h.inside.mp (by rw [hgranted]; nofun)]
    exact ⟨Nat.le_of_ble_eq_true rfl, hstops⟩
  | arrive ev =>
    obtain rfl := Option.some.inj hs
    exact ⟨(Nat.zero_add _).le, hstops⟩
  | masterPoll | masterNotify | vanish ev =>
    obtain ⟨-, hs⟩ := Option.ite_none_right_eq_some.mp hs
    obtain rfl := Option.some.inj hs
    exact ⟨(Nat.zero_add _).le, hstops⟩
  | flag | unblockPollFD =>
    obtain ⟨hd, -⟩ := Option.ite_none_right_eq_some.mp hs
    rw [hd] at hstops
    cases hstops
  | join =>
    obtain ⟨-, hs⟩ := Option.ite_none_right_eq_some.mp hs
    obtain rfl := Option.some.inj hs
    exact ⟨(Nat.zero_add _).le, rfl⟩

/-- A fibre that is not to sleep can go on. -/
theorem own_enabled (h : Inv s) (hawake : ¬ s.asleep) (hpc : s.pc ≠ .terminated) :
    ∃ b, b.own = true ∧ (step SpinMax s b).isSome = true := by
  cases hp : s.pc with
  | created => exact ⟨.start, rfl, by simp [PollerFibre.step, hp]⟩
  | registering => exact ⟨.register, rfl, by simp [PollerFibre.step, hp]⟩
  | head => exact ⟨.test, rfl, by simp [PollerFibre.step, hp]⟩
  | polling => exact ⟨.doPoll false, rfl, by simp [PollerFibre.step, hp]⟩
  | notifying rest =>
    cases rest with
    | nil => exact ⟨.notified, rfl, by simp [PollerFibre.step, hp]⟩
    | cons ev rest => exact ⟨.notify ev, rfl, by simp [PollerFibre.step, hp]⟩
  | yielding => exact ⟨.resumeYield, rfl, by simp [PollerFibre.step, hp]⟩
  | modifying => exact ⟨.modify, rfl, by simp [PollerFibre.step, hp]⟩
  | beforeP => exact ⟨.P, rfl, by simp [PollerFibre.step, hp]⟩
  | inside =>
    have hgranted : s.sem.pc () = .granted := by
      rcases h.untimed with hout | hsleep | hgranted
      · exact absurd hout (h.inside.mpr hp)
      · exact absurd hsleep hawake
      · exact hgranted
    exact ⟨.resumption, rfl, by simp [PollerFibre.step, LockedSemaphore.resumption, hgranted]⟩
  | terminated => exact absurd hp hpc

/-- The fibre never has more than a full batch of events in hand. -/
theorem left_le {as : List Action} (he : exec (system SpinMax) .init as = some t) :
    t.pc.left ≤ MaxPoll + 4 := by
  have hbatch : ∀ (s : State) a s', s.pc.held.length ≤ MaxPoll → step SpinMax s a = some s' →
      s'.pc.held.length ≤ MaxPoll := by
    intro s a s' hs hstep
    cases a with
    | start | register | notified | resumeYield | modify =>
      obtain ⟨-, hstep⟩ := Option.ite_none_right_eq_some.mp hstep
      obtain rfl := Option.some.inj hstep
      exact Nat.zero_le _
    | test =>
      obtain ⟨-, hstep⟩ := Option.ite_none_right_eq_some.mp hstep
      obtain rfl := Option.some.inj hstep
      cases s.pollTerminate <;> exact Nat.zero_le _
    | doPoll eintr =>
      obtain ⟨-, hstep⟩ := Option.ite_none_right_eq_some.mp hstep
      obtain rfl := Option.some.inj hstep
      rcases doPoll_cases SpinMax s eintr with ⟨ev, evs, -, hev, hpoll⟩ | hpoll | hpoll
      · rw [hpoll]
        exact hev ▸ List.length_take_le ..
      · rw [hpoll]
        exact Nat.zero_le _
      · rw [hpoll]
        exact Nat.zero_le _
    | notify ev =>
      rw [PollerFibre.step] at hstep
      split at hstep
      · rename_i e rest hpc
        obtain ⟨-, hstep⟩ := Option.ite_none_right_eq_some.mp hstep
        obtain rfl := Option.some.inj hstep
        rw [hpc] at hs
        exact (Nat.le_succ _).trans hs
      · cases hstep
    | P =>
      obtain ⟨-, hstep⟩ := Option.ite_none_right_eq_some.mp hstep
      obtain rfl := Option.some.inj hstep
      rw [PollerFibre.stepP]
      split <;> exact Nat.zero_le _
    | resumption =>
      obtain ⟨sem, -, hstep⟩ := Option.map_eq_some_iff.mp hstep
      subst hstep
      exact Nat.zero_le _
    | arrive ev =>
      obtain rfl := Option.some.inj hstep
      exact hs
    | masterPoll | masterNotify | vanish ev | flag | unblockPollFD | join =>
      obtain ⟨-, hstep⟩ := Option.ite_none_right_eq_some.mp hstep
      obtain rfl := Option.some.inj hstep
      exact hs
  have hheld := inv_exec (I := fun s : State => s.pc.held.length ≤ MaxPoll) hbatch (Nat.zero_le _) he
  cases hpc : t.pc with
  | notifying rest =>
    rw [hpc] at hheld
    exact (Nat.add_le_add_right hheld 3).trans (Nat.le_succ _)
  | _ => exact Nat.le_of_ble_eq_true rfl

/-- RUN: after `unblockPollFD` the fibre does not sleep again, can go on until it has terminated, and
    terminates within one more round, however the others' steps fall. -/
theorem poller_terminates {as bs : List Action} (he : exec (system SpinMax) .init as = some s)
    (hstops : s.destructor.stops = true) (hrest : exec (system SpinMax) s bs = some t) :
    ¬ t.asleep ∧ (t.pc ≠ .terminated → ∃ b, b.own = true ∧ (step SpinMax t b).isSome = true) ∧
    times (system SpinMax) (fun _ b => b.own) s bs + t.pc.left ≤ MaxPoll + 4 := by
  suffices hrun : Inv t ∧ t.destructor.stops = true ∧
      times (system SpinMax) (fun _ b => b.own) s bs + t.pc.left ≤ s.pc.left by
    obtain ⟨hinv, hstops', hleft⟩ := hrun
    have hawake := (hinv.stops hstops').1
    exact ⟨hawake, own_enabled hinv hawake, hleft.trans (left_le he)⟩
  have hinv := inv_of_exec he
  clear he
  induction bs generalizing s with
  | nil =>
    rw [exec_nil, Option.some.injEq] at hrest
    subst hrest
    exact ⟨hinv, hstops, (Nat.zero_add _).le⟩
  | cons b bs ih =>
    obtain ⟨u, hu, hrest⟩ := exec_cons_some hrest
    obtain ⟨hleft, hstops'⟩ := left_step hinv hstops hu
    obtain ⟨hinv', hstill, hcount⟩ := ih hstops' hrest (hinv.step hu)
    refine ⟨hinv', hstill, ?_⟩
    rw [times_cons hu]
    omega

/-- The destructor finds the fibre asleep; the fibre wakes and terminates. -/
theorem poller_terminates_asleep : ∃ (as bs : List Action) (s t : State),
    exec (system 1) .init as = some s ∧ exec (system 1) s bs = some t ∧
    (s.destructor = .signalled ∧ t.destructor = .joined) ∧
    ¬ t.asleep ∧ (t.pc ≠ .terminated → ∃ b, b.own = true ∧ (step 1 t b).isSome = true) ∧
    times (system 1) (fun _ b => b.own) s bs + t.pc.left ≤ MaxPoll + 4 := by
  have hrun : (exec (system 1) .init [.start, .register, .test, .doPoll false, .modify, .P, .flag,
      .unblockPollFD]).map (fun s => decide (s.destructor = .signalled) &&
        ((exec (system 1) s [.resumption, .test, .join]).map
          fun t => decide (t.destructor = .joined)).getD false) = some true := by decide
  obtain ⟨s, he, hp⟩ := Option.map_eq_some_iff.mp hrun
  rw [Bool.and_eq_true] at hp
  have hs := of_decide_eq_true hp.1
  cases hrest : exec (system 1) s [.resumption, .test, .join] with
  | none =>
    rw [hrest] at hp
    cases hp.2
  | some t =>
    rw [hrest] at hp
    exact ⟨_, _, s, t, he, hrest, ⟨hs, of_decide_eq_true hp.2⟩,
      poller_terminates he (by rw [hs]; rfl) hrest⟩

end Libfibre.EventScope.PollerFibre
