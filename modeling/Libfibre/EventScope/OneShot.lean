import Libfibre.EventScope.Dispatch
import Mathlib.Data.Finset.Card
import Mathlib.Tactic.Ring

/-! `syncIO` (`EventScope.h`) with one-shot registrations: any number of fibres wait for one direction
    of one descriptor on its binary semaphore. Each attempt of the I/O function, each reading and
    each writing of `poller`, each `setupFD`, each section of the semaphore, and of the other side each
    event that the kernel makes of an armed registration, its delivery by `notifyOne` and its `V`, is
    one step. Nothing guards `poller`: two first callers may both find none.

        trying ─EAGAIN▶ looking ─poller▶ modifying ─setupFD▶ beforeP ─P▶ inside
                          └ none ▶ choosing ▶ creating ─setupFD▶ ▲ │       │ V
                                                         setupFD │ ▼ (open)▼
                                            rearming ◀─EAGAIN─ retrying ◀─ granted
                                                                  └─ other result ──▶ out

    One event disarms the registration and wakes one fibre. Only a fibre whose second attempt fails
    with `EAGAIN` arms it again: one that leaves with a result does not, and nobody else will. -/

namespace Libfibre.EventScope.OneShot
open Transition LockedSemaphore BlockingQueue

/-! ### The code -/

/-- Where a fibre is in `syncIO`. -/
inductive Pc where
  | out
  | trying
  | looking
  | choosing    -- has found no poller
  | creating
  | modifying
  | beforeP
  | inside      -- in `sync.P`
  | retrying
  | rearming
  deriving DecidableEq

/-- What a poller knows of the descriptor. -/
inductive Registration where
  | absent
  | disarmed
  | armed
  deriving DecidableEq

/-- The descriptor, the direction, and the pollers that `getPoller` gives the fibres. `testing` is
    `TESTING_ENABLE_ASSERTIONS`: without it a failing `SYSCALL` goes unnoticed. -/
structure Site (F B : Type) where
  testing : Bool
  fd : ℕ
  direction : Direction
  getPoller : F → B

/-- What the fibres, the kernel and the poller share of the descriptor. -/
structure State (F B : Type) where
  pc : F → Pc
  sem : LockedSemaphore.State F     -- `fdSyncVector[fd].sync[Input]`
  poller : Option B                 -- `fdSyncVector[fd].poller[Input]`
  reg : B → Registration
  undelivered : ℕ                   -- events made of a registration, not yet seen by `notifyOne`
  pending : ℕ                       -- calls of `V` still to be made
  begun : ℕ                         -- history: how many wake-ups have begun
  ended : ℕ                         -- history: how many of them have ended

/-- Fibre `f`, the kernel (`ready`) or a poller takes a step. -/
inductive Action (F B : Type) where
  | enter (f : F)
  | tryIo (f : F) (again : Bool)    -- `again`: the I/O function fails with `EAGAIN`
  | look (f : F)
  | assign (f : F)
  | setupFD (f : F)
  | P (f : F)
  | resumption (f : F)
  | ready (p : B)
  | notifyOne (ev : Event)
  | stray (ev : Event)              -- an event of the other direction's registration
  | V

variable {F B : Type} [DecidableEq F] [DecidableEq B] (c : Site F B)

/-- Fibre `f` goes to another place in `syncIO`. -/
def State.goto (s : State F B) (f : F) (p : Pc) : State F B :=
  { s with pc := Function.update s.pc f p }

/-- A call of `syncIO`, with an attempt to begin with. -/
def enter (s : State F B) (f : F) : Option (State F B) :=
  if s.pc f = .out then some (s.goto f .trying) else none

/-- `tryIO`, the first time and after `sync.P`. -/
def tryIo (s : State F B) (f : F) (again : Bool) : Option (State F B) :=
  match s.pc f with
  | .trying => some (s.goto f (if again then .looking else .out))
  | .retrying => some (s.goto f (if again then .rearming else .out))
  | _ => none

/-- `if (!poller)`. -/
def look (s : State F B) (f : F) : Option (State F B) :=
  if s.pc f = .looking then
    some (s.goto f (if s.poller.isNone then .choosing else .modifying))
  else none

/-- `poller = &getPoller(fd)`, also over what another fibre has written since. -/
def assign (s : State F B) (f : F) : Option (State F B) :=
  if s.pc f = .choosing then some { s.goto f .creating with poller := some (c.getPoller f) }
  else none

/-- `epoll_ctl` of the fibre at its present place fails: the descriptor is already there (`Create`),
    or is not there (`Modify`). -/
def Refused (s : State F B) (f : F) (p : B) : Bool :=
  if s.pc f = .creating then decide (s.reg p ≠ .absent) else decide (s.reg p = .absent)

/-- `poller->setupFD`, one-shot. -/
def setupFD (s : State F B) (f : F) : Option (State F B) :=
  if s.pc f = .creating ∨ s.pc f = .modifying ∨ s.pc f = .rearming then
    match s.poller with
    | none => none
    | some p =>
      if Refused s f p then if c.testing then none else some (s.goto f .beforeP)
      else some { s.goto f .beforeP with reg := Function.update s.reg p .armed }
  else none

/-- `sync.P()`. -/
def stepP (s : State F B) (f : F) : Option (State F B) :=
  if s.pc f = .beforeP then
    some (match internalP s.sem f (.wait true) with
      | (sem, none) => { s.goto f .inside with sem := sem }
      | (sem, some _) => { s.goto f .retrying with sem := sem })
  else none

/-- A fibre that a `V` has woken returns from `sync.P`. -/
def stepResumption (s : State F B) (f : F) : Option (State F B) :=
  (LockedSemaphore.resumption s.sem f).map fun sem => { s.goto f .retrying with sem := sem }

/-- The kernel makes an event of an armed registration, which it disarms. -/
def ready (s : State F B) (p : B) : Option (State F B) :=
  if s.reg p = .armed then
    some { s with reg := Function.update s.reg p .disarmed, undelivered := s.undelivered + 1 }
  else none

/-- The bits of an event of a registration for `d`. -/
def Event.ofRegistration (ev : Event) (fd : ℕ) (d : Direction) : Bool :=
  decide (ev.fd = fd) && ev.events &&& ~~~(d.bits ||| EPOLLERR ||| EPOLLHUP) == 0#32 &&
    ev.concerns d

/-- `notifyOne` of an event of this registration. -/
def deliver (s : State F B) (ev : Event) : Option (State F B) :=
  if 0 < s.undelivered ∧ Event.ofRegistration ev c.fd c.direction then
    some { s with
      undelivered := s.undelivered - 1
      pending := s.pending + if EventScope.notifyOne ev = some (c.fd, c.direction) then 1 else 0 }
  else none

/-- `notifyOne` of an event of the other direction's registration, taken for one of this. -/
def stray (s : State F B) (ev : Event) : Option (State F B) :=
  if Event.ofRegistration ev c.fd c.direction.other ∧
      EventScope.notifyOne ev = some (c.fd, c.direction) then
    some { s with pending := s.pending + 1 }
  else none

/-- `sync.V()`, of a binary semaphore. -/
def stepV (s : State F B) : Option (State F B) :=
  if 0 < s.pending then some { s with pending := s.pending - 1, sem := (V true s.sem).1 } else none

/-- One step of a fibre, of the kernel or of a poller. -/
def act (s : State F B) : Action F B → Option (State F B)
  | .enter f => enter s f
  | .tryIo f again => tryIo s f again
  | .look f => look s f
  | .assign f => assign c s f
  | .setupFD f => setupFD c s f
  | .P f => stepP s f
  | .resumption f => stepResumption s f
  | .ready p => ready s p
  | .notifyOne ev => deliver c s ev
  | .stray ev => stray c s ev
  | .V => stepV s

/-- A wake-up begins with the first `setupFD` of a call, if it arms the registration, or with an event
    of the other direction that is taken for one of this. -/
def begins (s : State F B) : Action F B → Bool
  | .setupFD f => s.poller.any fun p =>
      !Refused s f p && decide (s.reg p ≠ .armed) && decide (s.pc f ≠ .rearming)
  | .stray _ => true
  | _ => false

/-- It goes on with the event, the delivery, the `V` and the fibre that returns from `sync.P`, and
    again from the registration if that fibre gets `EAGAIN`. It ends when the fibre gets another
    result, and where it meets another one or is mislaid: a `V` finds the semaphore open, `setupFD`
    finds the registration armed or is refused, the event is taken for one of the other direction. -/
def ends (s : State F B) : Action F B → Bool
  | .tryIo f again => decide (s.pc f = .retrying) && !again
  | .setupFD f => decide (s.pc f = .rearming) && s.poller.any fun p =>
      Refused s f p || decide (s.reg p = .armed)
  | .notifyOne ev => decide (EventScope.notifyOne ev ≠ some (c.fd, c.direction))
  | .V => decide (1 ≤ s.sem.counter)
  | _ => false

/-- One step, with the wake-ups counted. -/
def step (s : State F B) (a : Action F B) : Option (State F B) :=
  (act c s a).map fun t =>
    { t with begun := s.begun + (begins s a).toNat, ended := s.ended + (ends c s a).toNat }

/-- Nobody is in `syncIO`, and nothing is registered. -/
def State.init : State F B := ⟨fun _ => .out, start 0, none, fun _ => .absent, 0, 0, 0, 0⟩

/-- All interleavings of the fibres, the kernel and the pollers. -/
def system : System (State F B) (Action F B) := ⟨fun s => s = State.init, step c⟩

/-! ### What is to come -/

/-- Asleep in `sync.P`. -/
def Blocked (s : State F B) (f : F) : Prop := s.sem.pc f = .blocked false

/-- Woken, and yet to repeat its attempt or to arm the registration again. -/
def Pc.awake : Pc → Bool
  | .retrying | .rearming => true
  | _ => false

/-- `V` has taken `f` out of the semaphore, or has let it pass. -/
def Woken (s : State F B) (f : F) : Prop := s.sem.pc f = .granted ∨ (s.pc f).awake = true

/-- Something is still to happen to the waiters: the registration is armed, an event undelivered, a
    `V` pending, or a woken fibre yet to repeat its attempt or to arm the registration again. -/
def Coming (s : State F B) : Prop :=
  (∃ p, s.reg p = .armed) ∨ 0 < s.undelivered ∨ 0 < s.pending ∨ ∃ f, Woken s f

/-- Blocked, or past its `setupFD` and about to block. -/
def Waits (s : State F B) (f : F) : Prop := Blocked s f ∨ s.pc f = .beforeP

/-- INVARIANT: whoever waits has something coming or finds the semaphore open. -/
def Served (s : State F B) : Prop := (∃ f, Waits s f) → Coming s ∨ 1 ≤ s.sem.counter

/-- The steps that leave waiters behind, told by the wake-ups begun and ended so far and by who waits:
    a woken fibre leaves with a result, with the only wake-up there is; the kernel refuses a `setupFD`,
    of a fibre that has the only one or of a first caller when there is none; and the only one goes to
    the other side, as an output event with `EPOLLERR` or `EPOLLHUP` does. -/
def Strands (s : State F B) : Action F B → Prop
  | .tryIo f again => s.pc f = .retrying ∧ again = false ∧ s.begun = s.ended + 1 ∧ ∃ g, Waits s g
  | .setupFD f => (∃ p, s.poller = some p ∧ Refused s f p = true) ∧
      s.begun = s.ended + (if s.pc f = .rearming then 1 else 0)
  | .notifyOne ev => EventScope.notifyOne ev ≠ some (c.fd, c.direction) ∧ s.begun = s.ended + 1 ∧
      ∃ g, Waits s g
  | _ => False

/-- INVARIANT: the semaphore and the fibres' places agree. -/
structure Places (s : State F B) : Prop where
  queues : Queues s.sem
  inside : ∀ f, s.sem.pc f ≠ .out → s.pc f = .inside
  untimed : ∀ f, s.sem.pc f = .out ∨ s.sem.pc f = .blocked false ∨ s.sem.pc f = .granted
  closed : ∀ f, Blocked s f → s.sem.counter < 1

/-- INVARIANT: `n` wake-ups are on their way, each in an armed registration (`A`), an event, a `V`,
    the open semaphore, or with a woken fibre (`W`). -/
structure Counted (s : State F B) (n : ℤ) (A : Finset B) (W : Finset F) : Prop where
  armed : ∀ p, p ∈ A ↔ s.reg p = .armed
  woken : ∀ f, f ∈ W ↔ Woken s f
  counter : 0 ≤ s.sem.counter ∧ s.sem.counter ≤ 1
  total : n = A.card + W.card + s.undelivered + s.pending + s.sem.counter

/-- INVARIANT: `n` wake-ups are on their way. -/
def InFlight (s : State F B) (n : ℤ) : Prop := ∃ A W, Counted s n A W

variable {c} {s s' : State F B} {f : F}

/-! ### What each step does -/

section
omit [DecidableEq B]

@[simp] theorem goto_sem (p : Pc) : (s.goto f p).sem = s.sem := rfl
@[simp] theorem goto_reg (p : Pc) : (s.goto f p).reg = s.reg := rfl
@[simp] theorem goto_pc (p : Pc) : (s.goto f p).pc = Function.update s.pc f p := rfl

theorem enter_some (h : enter s f = some s') : s.pc f = .out ∧ s' = s.goto f .trying := by
  obtain ⟨hpc, h⟩ := Option.ite_none_right_eq_some.mp h
  exact ⟨hpc, (Option.some.inj h).symm⟩

theorem tryIo_cases {again : Bool} (h : tryIo s f again = some s') :
    (s.pc f = .trying ∧ s' = s.goto f (if again then .looking else .out)) ∨
    (s.pc f = .retrying ∧ s' = s.goto f (if again then .rearming else .out)) := by
  rw [tryIo] at h
  split at h
  case h_1 hpc => exact .inl ⟨hpc, (Option.some.inj h).symm⟩
  case h_2 hpc => exact .inr ⟨hpc, (Option.some.inj h).symm⟩
  case h_3 => cases h

theorem look_cases (h : look s f = some s') : s.pc f = .looking ∧
    ∃ p, (p = Pc.choosing ∨ p = .modifying) ∧ s' = s.goto f p := by
  obtain ⟨hpc, h⟩ := Option.ite_none_right_eq_some.mp h
  exact ⟨hpc, _, by split <;> simp, (Option.some.inj h).symm⟩

theorem assign_some (h : assign c s f = some s') : s.pc f = .choosing ∧
    s' = { s.goto f .creating with poller := some (c.getPoller f) } := by
  obtain ⟨hpc, h⟩ := Option.ite_none_right_eq_some.mp h
  exact ⟨hpc, (Option.some.inj h).symm⟩

/-- `sync.P`: the fibre blocks, or takes the permit. -/
theorem stepP_cases (h : stepP s f = some s') : s.pc f = .beforeP ∧
    ((s.sem.counter < 1 ∧ s' = { s.goto f .inside with sem := s.sem.join f false }) ∨
     (1 ≤ s.sem.counter ∧
      s' = { s.goto f .retrying with sem := s.sem.setCounter (s.sem.counter - 1) })) := by
  obtain ⟨hpc, h⟩ := Option.ite_none_right_eq_some.mp h
  refine ⟨hpc, ?_⟩
  rcases internalP_cases s.sem f (.wait true) with ⟨hc, _, hP⟩ | ⟨_, hb, _⟩ | ⟨hc, hP⟩
  · rw [hP] at h
    exact .inl ⟨hc, (Option.some.inj h).symm⟩
  · cases hb
  · rw [hP] at h
    exact .inr ⟨hc, (Option.some.inj h).symm⟩

theorem stepResumption_some (h : stepResumption s f = some s') : s.sem.pc f = .granted ∧
    s' = { s.goto f .retrying with sem := s.sem.goto f .out } := by
  obtain ⟨sem, hsem, h⟩ := Option.map_eq_some_iff.mp h
  obtain ⟨hpc, hsem⟩ := resumption_some hsem
  subst hsem
  exact ⟨hpc, h.symm⟩

/-- `V` wakes a blocked fibre, or opens the semaphore. -/
theorem stepV_cases (hi : Places s) (h : stepV s = some s') :
    (∃ next sem, Blocked s next ∧ Grants s.sem next sem ∧
      s' = { s with pending := s.pending - 1, sem := sem }) ∨
    ((∀ f, ¬ Blocked s f) ∧
      s' = { s with pending := s.pending - 1, sem := s.sem.setCounter 1 }) := by
  obtain ⟨_, h⟩ := Option.ite_none_right_eq_some.mp h
  rcases V_cases true hi.queues with ⟨next, sem, hV, hg⟩ | ⟨hV, hnone⟩
  · rw [hV] at h
    refine .inl ⟨next, sem, ?_, hg, (Option.some.inj h).symm⟩
    have hwaits := hg.waits
    rcases hi.untimed next with hout | hbl | hgr
    · rw [hout] at hwaits; cases hwaits
    · exact hbl
    · rw [hgr] at hwaits; cases hwaits
  · rw [hV] at h
    refine .inr ⟨?_, (Option.some.inj h).symm⟩
    intro g hg
    have hwaits := hnone g
    rw [hg] at hwaits
    cases hwaits

end

theorem setupFD_cases (h : setupFD c s f = some s') :
    (s.pc f = .creating ∨ s.pc f = .modifying ∨ s.pc f = .rearming) ∧ ∃ p, s.poller = some p ∧
      ((Refused s f p = true ∧ s' = s.goto f .beforeP) ∨
       (Refused s f p = false ∧
        s' = { s.goto f .beforeP with reg := Function.update s.reg p .armed })) := by
  obtain ⟨hpc, h⟩ := Option.ite_none_right_eq_some.mp h
  refine ⟨hpc, ?_⟩
  split at h
  case h_1 => cases h
  case h_2 p hp =>
    refine ⟨p, hp, ?_⟩
    cases href : Refused s f p with
    | true =>
      rw [href, if_pos rfl] at h
      split at h
      · cases h
      · exact .inl ⟨rfl, (Option.some.inj h).symm⟩
    | false =>
      rw [href, if_neg Bool.false_ne_true] at h
      exact .inr ⟨rfl, (Option.some.inj h).symm⟩

/-! ### The places -/

section
omit [DecidableEq B]

omit [DecidableEq F] in
theorem Places.start : Places (State.init : State F B) where
  queues := queues_start 0
  inside f hf := absurd rfl hf
  untimed _ := .inl rfl
  closed f hf := by cases hf

omit [DecidableEq F] in
/-- Only the places of the fibres and the semaphore matter. -/
theorem Places.congr {t : State F B} (hi : Places s) (hpc : t.pc = s.pc) (hsem : t.sem = s.sem) :
    Places t := by
  refine ⟨hsem ▸ hi.queues, fun g => ?_, fun g => ?_, fun g => ?_⟩
  · rw [hsem, hpc]; exact hi.inside g
  · rw [hsem]; exact hi.untimed g
  · rw [Blocked, hsem]; exact hi.closed g

omit [DecidableEq F] in
theorem Places.outside (hi : Places s) (hpc : s.pc f ≠ .inside) : s.sem.pc f = .out := by
  by_contra hne
  exact hpc (hi.inside f hne)

/-- A fibre outside the semaphore moves, to a place outside it. -/
theorem Places.goto (hi : Places s) (hpc : s.pc f ≠ .inside) (p : Pc) : Places (s.goto f p) where
  queues := hi.queues
  inside g hg := by
    have hin := hi.inside g hg
    rcases eq_or_ne g f with rfl | hne
    · exact absurd hin hpc
    · rw [goto_pc, Function.update_of_ne hne]; exact hin
  untimed := hi.untimed
  closed := hi.closed

theorem Places.afterP (hi : Places s) (h : stepP s f = some s') : Places s' := by
  obtain ⟨hpc, ⟨hc, rfl⟩ | ⟨hc, rfl⟩⟩ := stepP_cases h
  · have hout : s.sem.pc f = .out := hi.outside (by rw [hpc]; decide)
    refine ⟨hi.queues.joined hout false, fun g hg => ?_, fun g => ?_, fun g _ => hc⟩
    · rcases eq_or_ne g f with rfl | hne
      · simp
      · rw [join_pc, Function.update_of_ne hne] at hg
        simpa [hne] using hi.inside g hg
    · rcases eq_or_ne g f with rfl | hne
      · simp
      · simpa [hne] using hi.untimed g
  · have hnone : ∀ g, ¬ Blocked s g := by
      intro g hg
      have := hi.closed g hg
      omega
    refine ⟨hi.queues.setCounter _, fun g hg => ?_, hi.untimed, fun g hg => absurd hg (hnone g)⟩
    have hin := hi.inside g hg
    rcases eq_or_ne g f with rfl | hne
    · rw [hpc] at hin; cases hin
    · simpa [hne] using hin

theorem Places.afterResumption (hi : Places s) (h : stepResumption s f = some s') : Places s' := by
  obtain ⟨hpc, rfl⟩ := stepResumption_some h
  refine ⟨hi.queues.goto (by rw [hpc]; rfl), fun g hg => ?_, fun g => ?_, fun g hg => ?_⟩
  · rcases eq_or_ne g f with rfl | hne
    · simp at hg
    · have hg : s.sem.pc g ≠ .out := by simpa [hne] using hg
      simpa [hne] using hi.inside g hg
  · rcases eq_or_ne g f with rfl | hne
    · simp
    · simpa [hne] using hi.untimed g
  · rcases eq_or_ne g f with rfl | hne
    · simp [Blocked] at hg
    · have hg : Blocked s g := by simpa [Blocked, hne] using hg
      exact hi.closed g hg

theorem Places.afterV (hi : Places s) (h : stepV s = some s') : Places s' := by
  obtain ⟨next, sem, hnext, hg, rfl⟩ | ⟨hnone, rfl⟩ := stepV_cases hi h
  · refine ⟨hg.queues hi.queues, fun g hne => ?_, fun g => ?_, fun g hbl => ?_⟩
    · refine hi.inside g ?_
      rcases eq_or_ne g next with rfl | hn
      · rw [hnext]; nofun
      · rwa [hg.pc, Function.update_of_ne hn] at hne
    · rcases eq_or_ne g next with rfl | hn
      · rw [hg.pc, Function.update_self]; exact .inr (.inr rfl)
      · rw [hg.pc, Function.update_of_ne hn]; exact hi.untimed g
    · rw [hg.counter]
      exact hi.closed next hnext
  · exact ⟨hi.queues.setCounter _, hi.inside, hi.untimed, fun g hg => absurd hg (hnone g)⟩

end

/-- STEP: every step keeps the places. -/
theorem Places.act (hi : Places s) {a : Action F B} (h : act c s a = some s') : Places s' := by
  cases a with
  | enter f =>
    obtain ⟨hpc, rfl⟩ := enter_some h
    exact hi.goto (by rw [hpc]; decide) _
  | tryIo f again =>
    obtain ⟨hpc, rfl⟩ | ⟨hpc, rfl⟩ := tryIo_cases h
    · exact hi.goto (by rw [hpc]; decide) _
    · exact hi.goto (by rw [hpc]; decide) _
  | look f =>
    obtain ⟨hpc, p, _, rfl⟩ := look_cases h
    exact hi.goto (by rw [hpc]; decide) p
  | assign f =>
    obtain ⟨hpc, rfl⟩ := assign_some h
    exact (hi.goto (f := f) (by rw [hpc]; decide) .creating).congr rfl rfl
  | setupFD f =>
    obtain ⟨hpc, p, _, hcase⟩ := setupFD_cases h
    have hgoto : Places (s.goto f .beforeP) :=
      hi.goto (by rcases hpc with hpc | hpc | hpc <;> rw [hpc] <;> decide) _
    obtain ⟨_, rfl⟩ | ⟨_, rfl⟩ := hcase
    · exact hgoto
    · exact hgoto.congr rfl rfl
  | P f => exact hi.afterP h
  | resumption f => exact hi.afterResumption h
  | ready p =>
    obtain ⟨_, h⟩ := Option.ite_none_right_eq_some.mp h
    cases h
    exact hi.congr rfl rfl
  | notifyOne ev =>
    obtain ⟨_, h⟩ := Option.ite_none_right_eq_some.mp h
    cases h
    exact hi.congr rfl rfl
  | stray ev =>
    obtain ⟨_, h⟩ := Option.ite_none_right_eq_some.mp h
    cases h
    exact hi.congr rfl rfl
  | V => exact hi.afterV h

/-! ### The wake-ups on their way -/

section
omit [DecidableEq B]

omit [DecidableEq F] in
theorem InFlight.start : InFlight (State.init : State F B) 0 := by
  refine ⟨∅, ∅, fun p => ?_, fun f => ?_, ⟨Int.le_refl 0, Int.one_nonneg⟩, rfl⟩
  · exact iff_of_false (Finset.notMem_empty p) nofun
  · exact iff_of_false (Finset.notMem_empty f) (by rintro (h | h) <;> cases h)

omit [DecidableEq F] in
/-- None is on its way exactly if nothing is coming and the semaphore is closed. -/
theorem InFlight.pos_iff {n : ℤ} (h : InFlight s n) : 0 < n ↔ Coming s ∨ 1 ≤ s.sem.counter := by
  obtain ⟨A, W, hA, hW, hc, hn⟩ := h
  constructor
  · intro hpos
    by_contra hno
    simp only [Coming, not_or, not_exists] at hno
    obtain ⟨⟨hreg, hund, hpend, hwoken⟩, hclosed⟩ := hno
    have hA0 : A.card = 0 :=
      Finset.card_eq_zero.mpr (Finset.eq_empty_of_forall_notMem fun p hp => hreg p ((hA p).mp hp))
    have hW0 : W.card = 0 :=
      Finset.card_eq_zero.mpr (Finset.eq_empty_of_forall_notMem fun f hf => hwoken f ((hW f).mp hf))
    omega
  · rintro ((⟨p, hp⟩ | hund | hpend | ⟨f, hf⟩) | hopen)
    · have := Finset.card_pos.mpr ⟨p, (hA p).mpr hp⟩
      omega
    · omega
    · omega
    · have := Finset.card_pos.mpr ⟨f, (hW f).mpr hf⟩
      omega
    · omega

omit [DecidableEq F] in
theorem InFlight.nonneg {n : ℤ} (h : InFlight s n) : 0 ≤ n := by
  obtain ⟨A, W, _, _, hc, hn⟩ := h
  omega

omit [DecidableEq F] in
theorem InFlight.served_iff {n : ℤ} (h : InFlight s n) :
    Served s ↔ ((∃ f, Waits s f) → 0 < n) := by
  rw [Served, h.pos_iff]

/-- A fibre outside the semaphore goes elsewhere: only its own place counts. -/
theorem woken_goto (hout : s.sem.pc f = .out) (p : Pc) (g : F) :
    Woken (s.goto f p) g ↔ if g = f then p.awake = true else Woken s g := by
  rcases eq_or_ne g f with rfl | hne
  · simp [Woken, hout]
  · simp [Woken, hne]

theorem InFlight.goto {n : ℤ} (h : InFlight s n) (hout : s.sem.pc f = .out) {p : Pc}
    (hp : p.awake = (s.pc f).awake) : InFlight (s.goto f p) n := by
  obtain ⟨A, W, hA, hW, hc, hn⟩ := h
  refine ⟨A, W, hA, fun g => ?_, hc, hn⟩
  rw [hW, woken_goto hout]
  split
  case isTrue heq => rw [heq, hp, Woken, hout]; simp
  case isFalse => rfl

/-- A woken fibre is done with its wake-up. -/
theorem InFlight.done {n : ℤ} (h : InFlight s n) (hout : s.sem.pc f = .out)
    (hf : (s.pc f).awake = true) {p : Pc} (hp : p.awake = false) : InFlight (s.goto f p) (n - 1) := by
  obtain ⟨A, W, hA, hW, hc, hn⟩ := h
  refine ⟨A, W.erase f, hA, fun g => ?_, hc, ?_⟩
  · rw [Finset.mem_erase, hW, woken_goto hout]
    split
    case isTrue heq => simp [heq, hp]
    case isFalse hne => simp [hne]
  · have := Finset.card_erase_add_one ((hW f).mpr (.inr hf))
    change n - 1 = A.card + (W.erase f).card + s.undelivered + s.pending + s.sem.counter
    omega

theorem InFlight.afterP {n : ℤ} (hi : Places s) (h : InFlight s n) (hP : stepP s f = some s') :
    InFlight s' n := by
  obtain ⟨A, W, hA, hW, hc, hn⟩ := h
  obtain ⟨hpc, ⟨_, rfl⟩ | ⟨hopen, rfl⟩⟩ := stepP_cases hP
  · have hout : s.sem.pc f = .out := hi.outside (by rw [hpc]; decide)
    refine ⟨A, W, hA, fun g => ?_, hc, hn⟩
    rw [hW]
    rcases eq_or_ne g f with rfl | hne
    · simp [Woken, hout, hpc, Pc.awake]
    · simp [Woken, hne]
  · have hout : s.sem.pc f = .out := hi.outside (by rw [hpc]; decide)
    have hnot : f ∉ W := by
      rw [hW]
      rintro (hg | hg)
      · rw [hout] at hg; cases hg
      · rw [hpc] at hg; cases hg
    refine ⟨A, insert f W, hA, fun g => ?_, ?_, ?_⟩
    · rw [Finset.mem_insert, hW]
      rcases eq_or_ne g f with rfl | hne
      · simp [Woken, Pc.awake]
      · simp [Woken, hne]
    · change 0 ≤ s.sem.counter - 1 ∧ s.sem.counter - 1 ≤ 1
      omega
    · have := Finset.card_insert_of_notMem hnot
      change n = A.card + (insert f W).card + s.undelivered + s.pending + (s.sem.counter - 1)
      omega

theorem InFlight.afterResumption {n : ℤ} (h : InFlight s n) (hr : stepResumption s f = some s') :
    InFlight s' n := by
  obtain ⟨A, W, hA, hW, hc, hn⟩ := h
  obtain ⟨hpc, rfl⟩ := stepResumption_some hr
  refine ⟨A, W, hA, fun g => ?_, hc, hn⟩
  rw [hW]
  rcases eq_or_ne g f with rfl | hne
  · simp [Woken, hpc, Pc.awake]
  · simp [Woken, hne]

theorem InFlight.afterV {n : ℤ} (hi : Places s) (h : InFlight s n) (hV : stepV s = some s') :
    InFlight s' (n - (decide (1 ≤ s.sem.counter)).toNat) := by
  obtain ⟨A, W, hA, hW, hc, hn⟩ := h
  have hpos : 0 < s.pending := (Option.ite_none_right_eq_some.mp hV).1
  obtain ⟨next, sem, hnext, hg, rfl⟩ | ⟨_, rfl⟩ := stepV_cases hi hV
  · have hclosed := hi.closed next hnext
    have hin := hi.inside next (by rw [hnext]; nofun)
    have hnot : next ∉ W := by
      rw [hW]
      rintro (h | h)
      · rw [hnext] at h; cases h
      · rw [hin] at h; cases h
    refine ⟨A, insert next W, hA, fun g => ?_, ?_, ?_⟩
    · rw [Finset.mem_insert, hW, Woken, Woken, hg.pc]
      rcases eq_or_ne g next with rfl | hne
      · simp
      · simp [hne]
    · change 0 ≤ sem.counter ∧ sem.counter ≤ 1
      rw [hg.counter]
      exact hc
    · have := Finset.card_insert_of_notMem hnot
      change n - (decide (1 ≤ s.sem.counter)).toNat =
        A.card + (insert next W).card + s.undelivered + (s.pending - 1 : ℕ) + sem.counter
      rw [hg.counter, decide_eq_false (by omega)]
      simp only [Bool.toNat_false]
      omega
  · refine ⟨A, W, hA, hW, ⟨Int.one_nonneg, Int.le_refl 1⟩, ?_⟩
    change n - (decide (1 ≤ s.sem.counter)).toNat =
      A.card + W.card + s.undelivered + (s.pending - 1 : ℕ) + (1 : ℤ)
    by_cases hopen : 1 ≤ s.sem.counter
    · rw [decide_eq_true hopen, Bool.toNat_true]
      omega
    · rw [decide_eq_false hopen, Bool.toNat_false]
      omega

end

omit [DecidableEq F] in
theorem InFlight.arm {n : ℤ} (h : InFlight s n) (p : B) :
    InFlight { s with reg := Function.update s.reg p .armed }
      (n + (decide (s.reg p ≠ .armed)).toNat) := by
  obtain ⟨A, W, hA, hW, hc, hn⟩ := h
  refine ⟨insert p A, W, fun q => ?_, hW, hc, ?_⟩
  · rw [Finset.mem_insert, hA]
    rcases eq_or_ne q p with rfl | hne
    · simp
    · simp [hne]
  · change n + (decide (s.reg p ≠ .armed)).toNat =
      (insert p A).card + W.card + s.undelivered + s.pending + s.sem.counter
    by_cases hp : s.reg p = .armed
    · rw [Finset.insert_eq_self.mpr ((hA p).mpr hp), decide_eq_false (not_not_intro hp)]
      simpa using hn
    · have := Finset.card_insert_of_notMem (mt (hA p).mp hp)
      rw [decide_eq_true hp, Bool.toNat_true]
      omega

omit [DecidableEq F] in
theorem InFlight.afterReady {n : ℤ} {p : B} (h : InFlight s n) (hr : ready s p = some s') :
    InFlight s' n := by
  obtain ⟨A, W, hA, hW, hc, hn⟩ := h
  obtain ⟨hp, hr⟩ := Option.ite_none_right_eq_some.mp hr
  cases hr
  refine ⟨A.erase p, W, fun q => ?_, hW, hc, ?_⟩
  · rw [Finset.mem_erase, hA]
    rcases eq_or_ne q p with rfl | hne
    · simp
    · simp [hne]
  · have := Finset.card_erase_add_one ((hA p).mpr hp)
    change n = (A.erase p).card + W.card + (s.undelivered + 1 : ℕ) + s.pending + s.sem.counter
    omega

/-- `setupFD` of a first attempt adds a wake-up, that of a woken fibre hands its own on. -/
theorem InFlight.afterSetupFD {n : ℤ} (hi : Places s) (h : InFlight s n)
    (ha : setupFD c s f = some s') :
    InFlight s' (n + (begins s (.setupFD f)).toNat - (ends c s (.setupFD f)).toNat) := by
  obtain ⟨hpc, p, hp, hcase⟩ := setupFD_cases ha
  have hout : s.sem.pc f = .out :=
    hi.outside (by rcases hpc with hpc | hpc | hpc <;> rw [hpc] <;> decide)
  -- the fibre gives up its own wake-up if it has one
  have hgone : InFlight (s.goto f .beforeP) (n - (decide (s.pc f = .rearming)).toNat) := by
    by_cases hre : s.pc f = .rearming
    · simpa [hre] using h.done hout (p := .beforeP) (by rw [hre]; rfl) rfl
    · have hasleep : (s.pc f).awake = false := by
        rcases hpc with hpc | hpc | hpc
        · rw [hpc]; rfl
        · rw [hpc]; rfl
        · exact absurd hpc hre
      simpa [hre] using h.goto hout (p := .beforeP) hasleep.symm
  obtain ⟨href, rfl⟩ | ⟨href, rfl⟩ := hcase
  · simpa [begins, ends, hp, href] using hgone
  · have harm := hgone.arm p
    rw [goto_reg] at harm
    convert harm using 1
    by_cases hre : s.pc f = .rearming <;> by_cases harmed : s.reg p = .armed <;>
      simp [begins, ends, hp, href, hre, harmed]

omit [DecidableEq F] [DecidableEq B] in
theorem InFlight.afterDeliver {n : ℤ} {ev : Event} (h : InFlight s n)
    (ha : deliver c s ev = some s') :
    InFlight s' (n + (begins s (.notifyOne ev)).toNat - (ends c s (.notifyOne ev)).toNat) := by
  obtain ⟨A, W, hA, hW, hc, hn⟩ := h
  obtain ⟨⟨hpos, _⟩, ha⟩ := Option.ite_none_right_eq_some.mp ha
  cases ha
  refine ⟨A, W, hA, hW, hc, ?_⟩
  dsimp only
  by_cases hto : EventScope.notifyOne ev = some (c.fd, c.direction)
  · simp only [begins, ends, hto, Bool.toNat_false, ne_eq, not_true_eq_false, decide_false, if_pos]
    omega
  · simp only [begins, ends, hto, Bool.toNat_false, Bool.toNat_true, ne_eq, not_false_eq_true,
      decide_true, if_false]
    omega

/-- STEP: the wake-ups on their way are those begun and not ended. -/
theorem InFlight.act {n : ℤ} (hi : Places s) (h : InFlight s n) {a : Action F B}
    (ha : act c s a = some s') : InFlight s' (n + (begins s a).toNat - (ends c s a).toNat) := by
  cases a with
  | enter f =>
    obtain ⟨hpc, rfl⟩ := enter_some ha
    simpa [begins, ends] using
      h.goto (hi.outside (by rw [hpc]; decide)) (p := .trying) (by rw [hpc]; rfl)
  | tryIo f again =>
    obtain ⟨hpc, rfl⟩ | ⟨hpc, rfl⟩ := tryIo_cases ha
    · simpa [begins, ends, hpc] using
        h.goto (hi.outside (by rw [hpc]; decide)) (p := if again then .looking else .out)
          (by rw [hpc]; cases again <;> rfl)
    · have hout := hi.outside (f := f) (by rw [hpc]; decide)
      cases again with
      | true =>
        simpa [begins, ends] using h.goto hout (p := .rearming) (by rw [hpc]; rfl)
      | false =>
        simpa [begins, ends, hpc] using h.done hout (p := .out) (by rw [hpc]; rfl) rfl
  | look f =>
    obtain ⟨hpc, p, hp, rfl⟩ := look_cases ha
    simpa [begins, ends] using h.goto (hi.outside (by rw [hpc]; decide)) (p := p)
      (by rw [hpc]; rcases hp with rfl | rfl <;> rfl)
  | assign f =>
    obtain ⟨hpc, rfl⟩ := assign_some ha
    obtain ⟨A, W, hA, hW, hc, hn⟩ :=
      h.goto (hi.outside (by rw [hpc]; decide)) (p := .creating) (by rw [hpc]; rfl)
    exact ⟨A, W, hA, hW, hc, by simpa [begins, ends] using hn⟩
  | setupFD f => exact h.afterSetupFD hi ha
  | P f => simpa [begins, ends] using h.afterP hi ha
  | resumption f => simpa [begins, ends] using h.afterResumption ha
  | ready p => simpa [begins, ends] using h.afterReady ha
  | notifyOne ev => exact h.afterDeliver ha
  | stray ev =>
    obtain ⟨A, W, hA, hW, hc, hn⟩ := h
    obtain ⟨_, ha⟩ := Option.ite_none_right_eq_some.mp ha
    cases ha
    refine ⟨A, W, hA, hW, hc, ?_⟩
    change n + (1 : ℕ) - (0 : ℕ) = A.card + W.card + s.undelivered + (s.pending + 1 : ℕ) + s.sem.counter
    omega
  | V => simpa [begins, ends] using h.afterV hi ha

/-! ### Who is served -/

theorem step_some {a : Action F B} (h : step c s a = some s') : ∃ t, act c s a = some t ∧
    s' = { t with begun := s.begun + (begins s a).toNat, ended := s.ended + (ends c s a).toNat } := by
  obtain ⟨t, ht, h⟩ := Option.map_eq_some_iff.mp h
  exact ⟨t, ht, h.symm⟩

/-- INVARIANT: the wake-ups on their way are those begun and not ended. -/
def Tallied (s : State F B) : Prop := InFlight s (s.begun - s.ended)

theorem Tallied.step (hi : Places s) (h : Tallied s) {a : Action F B} (ha : step c s a = some s') :
    Tallied s' := by
  obtain ⟨t, ht, rfl⟩ := step_some ha
  obtain ⟨A, W, hA, hW, hc, hn⟩ := InFlight.act hi h ht
  refine ⟨A, W, hA, hW, hc, ?_⟩
  rw [← hn]
  push_cast
  ring

section
omit [DecidableEq B]

omit [DecidableEq F] in
theorem served_of_woken (h : Woken s f) : Served s := fun _ => .inl (.inr (.inr (.inr ⟨f, h⟩)))

theorem waits_goto {p : Pc} (hb : p = .beforeP ↔ s.pc f = .beforeP) (g : F) :
    Waits (s.goto f p) g ↔ Waits s g := by
  rcases eq_or_ne g f with rfl | hne
  · simp [Waits, Blocked, hb]
  · simp [Waits, Blocked, hne]

/-- A move between places that are alike for the waiters changes nothing. -/
theorem served_goto {n : ℤ} (hn : InFlight s n) (hout : s.sem.pc f = .out) {p : Pc}
    (ha : p.awake = (s.pc f).awake) (hb : p = .beforeP ↔ s.pc f = .beforeP) (hs : Served s) :
    Served (s.goto f p) := by
  rw [(hn.goto hout ha).served_iff]
  rintro ⟨g, hg⟩
  exact hn.served_iff.mp hs ⟨g, (waits_goto hb g).mp hg⟩

/-- A woken fibre leaves with a result: the others stay served unless it had the only wake-up. -/
theorem served_leave {n : ℤ} (hi : Places s) (hn : InFlight s n) (hpc : s.pc f = .retrying) :
    Served (s.goto f .out) ↔ ¬ (n = 1 ∧ ∃ g, Waits s g) := by
  have hout : s.sem.pc f = .out := hi.outside (by rw [hpc]; decide)
  have hdone := hn.done hout (p := .out) (by rw [hpc]; rfl) rfl
  have hwaits : (∃ g, Waits (s.goto f .out) g) ↔ ∃ g, Waits s g :=
    exists_congr (waits_goto (by rw [hpc]; decide))
  have hpos := hdone.nonneg
  rw [hdone.served_iff, hwaits, not_and']
  exact imp_congr_right fun _ => ⟨fun h heq => by omega, fun h => by omega⟩

/-- A refused `setupFD`: the fibre waits all the same. -/
theorem served_refused {n : ℤ} (hn : InFlight (s.goto f .beforeP) n) :
    Served (s.goto f .beforeP) ↔ n ≠ 0 := by
  have hwaits : ∃ g, Waits (s.goto f .beforeP) g :=
    ⟨f, .inr (by rw [goto_pc, Function.update_self])⟩
  have hnonneg := hn.nonneg
  rw [hn.served_iff]
  exact ⟨fun h => (h hwaits).ne', fun h _ => by omega⟩

theorem served_afterP {n : ℤ} (hi : Places s) (hn : InFlight s n) (hs : Served s)
    (h : stepP s f = some s') : Served s' := by
  rw [(hn.afterP hi h).served_iff]
  intro _
  exact hn.served_iff.mp hs ⟨f, .inr (stepP_cases h).1⟩

theorem served_afterV (hi : Places s) (h : stepV s = some s') : Served s' := by
  obtain ⟨next, sem, _, hg, rfl⟩ | ⟨_, rfl⟩ := stepV_cases hi h
  · refine served_of_woken (f := next) (.inl ?_)
    change sem.pc next = .granted
    rw [hg.pc, Function.update_self]
  · intro _
    exact .inr (Int.le_refl 1)

omit [DecidableEq F] in
/-- An event is delivered: its `V` is pending, or it went to the other direction. -/
theorem served_deliver {ev : Event} (ht : Tallied s) (hs : Served s)
    (h : deliver c s ev = some s') : Served s' ↔ ¬ Strands c s (.notifyOne ev) := by
  have hn := ht.afterDeliver h
  have hpos := hn.nonneg
  obtain ⟨_, h⟩ := Option.ite_none_right_eq_some.mp h
  cases h
  rw [hn.served_iff, Strands]
  change ((∃ g, Waits s g) → _) ↔ _
  by_cases hto : EventScope.notifyOne ev = some (c.fd, c.direction)
  · have hends : ends c s (.notifyOne ev) = false := decide_eq_false (not_not_intro hto)
    simp only [hends, begins, Bool.toNat_false, hto, ne_eq, not_true_eq_false, false_and,
      not_false_eq_true, iff_true]
    intro hg
    have := ht.served_iff.mp hs hg
    omega
  · have hends : ends c s (.notifyOne ev) = true := decide_eq_true hto
    simp only [hends, begins, Bool.toNat_false, Bool.toNat_true] at hpos ⊢
    constructor
    · rintro h ⟨_, hlast, hg⟩
      have := h hg
      omega
    · intro h hg
      by_contra hno
      exact h ⟨hto, by omega, hg⟩

end

/-- STEP: from a state in which the waiters are served, exactly the stranding steps leave some of
    them with nothing coming. -/
theorem served_act (hi : Places s) (ht : Tallied s) (hs : Served s) {a : Action F B}
    (h : act c s a = some s') : Served s' ↔ ¬ Strands c s a := by
  cases a with
  | enter f =>
    obtain ⟨hpc, rfl⟩ := enter_some h
    exact ⟨fun _ => id, fun _ => served_goto ht (hi.outside (by rw [hpc]; decide))
      (by rw [hpc]; rfl) (by rw [hpc]; decide) hs⟩
  | tryIo f again =>
    obtain ⟨hpc, rfl⟩ | ⟨hpc, rfl⟩ := tryIo_cases h
    · have hother : ¬ Strands c s (.tryIo f again) := by
        rintro ⟨hpc', _⟩
        rw [hpc] at hpc'
        cases hpc'
      exact ⟨fun _ => hother, fun _ => served_goto ht (hi.outside (by rw [hpc]; decide))
        (by rw [hpc]; cases again <;> rfl) (by rw [hpc]; cases again <;> decide) hs⟩
    · cases again with
      | true =>
        exact ⟨fun _ hbad => Bool.noConfusion hbad.2.1,
          fun _ => served_goto ht (hi.outside (by rw [hpc]; decide)) (by rw [hpc]; rfl)
            (by rw [hpc]; decide) hs⟩
      | false =>
        rw [if_neg Bool.false_ne_true, served_leave hi ht hpc, Strands]
        refine not_congr ⟨fun hl => ⟨hpc, rfl, by omega, hl.2⟩, fun hl => ⟨?_, hl.2.2.2⟩⟩
        have := hl.2.2.1
        omega
  | look f =>
    obtain ⟨hpc, p, hp, rfl⟩ := look_cases h
    exact ⟨fun _ => id, fun _ => served_goto ht (hi.outside (by rw [hpc]; decide))
      (by rw [hpc]; rcases hp with rfl | rfl <;> rfl)
      (by rw [hpc]; rcases hp with rfl | rfl <;> decide) hs⟩
  | assign f =>
    obtain ⟨hpc, rfl⟩ := assign_some h
    exact ⟨fun _ => id, fun _ => served_goto ht (hi.outside (by rw [hpc]; decide))
      (p := .creating) (by rw [hpc]; rfl) (by rw [hpc]; decide) hs⟩
  | setupFD f =>
    have hn := InFlight.afterSetupFD hi ht h
    obtain ⟨_, p, hp, hcase⟩ := setupFD_cases h
    obtain ⟨href, rfl⟩ | ⟨href, rfl⟩ := hcase
    · rw [served_refused hn, Strands, begins, ends, hp]
      by_cases hre : s.pc f = .rearming
      · simp [href, hre]
        omega
      · simp [href, hre]
        omega
    · constructor
      · rintro _ ⟨⟨q, hq, href'⟩, _⟩
        rw [hp] at hq
        cases hq
        rw [href] at href'
        cases href'
      · intro _ _
        exact .inl (.inl ⟨p, Function.update_self ..⟩)
  | P f => exact ⟨fun _ => id, fun _ => served_afterP hi ht hs h⟩
  | resumption f =>
    obtain ⟨_, rfl⟩ := stepResumption_some h
    refine ⟨fun _ => id, fun _ => served_of_woken (f := f) (.inr ?_)⟩
    change ((Function.update s.pc f Pc.retrying f).awake) = true
    rw [Function.update_self]
    rfl
  | ready p =>
    obtain ⟨_, h⟩ := Option.ite_none_right_eq_some.mp h
    cases h
    exact ⟨fun _ => id, fun _ _ => .inl (.inr (.inl (Nat.succ_pos _)))⟩
  | notifyOne ev => exact served_deliver ht hs h
  | stray ev =>
    obtain ⟨_, h⟩ := Option.ite_none_right_eq_some.mp h
    cases h
    exact ⟨fun _ => id, fun _ _ => .inl (.inr (.inr (.inl (Nat.succ_pos _))))⟩
  | V => exact ⟨fun _ => id, fun _ => served_afterV hi h⟩

theorem Places.step (hi : Places s) {a : Action F B} (h : step c s a = some s') : Places s' := by
  obtain ⟨t, ht, rfl⟩ := step_some h
  exact (hi.act ht).congr rfl rfl

theorem served_step (hi : Places s) (ht : Tallied s) (hs : Served s) {a : Action F B}
    (h : step c s a = some s') : Served s' ↔ ¬ Strands c s a := by
  obtain ⟨t, ha, rfl⟩ := step_some h
  -- who is served does not depend on the counts
  have hserved : Served t ↔ ¬ Strands c s a := served_act hi ht hs ha
  exact hserved

/-- RUN: as long as no step strands anybody, all waiters are served. -/
theorem served_run {as : List (Action F B)}
    (h : Run (system c) (fun s a => ¬ Strands c s a) as s) : Places s ∧ Tallied s ∧ Served s := by
  refine h.inv (I := fun s => Places s ∧ Tallied s ∧ Served s) ?_ fun s a s' hi hok hs => ?_
  · rintro _ rfl
    refine ⟨Places.start, InFlight.start, ?_⟩
    rintro ⟨g, hg | hg⟩ <;> cases hg
  · obtain ⟨hplaces, htally, hserved⟩ := hi
    exact ⟨hplaces.step hs, htally.step hplaces hs,
      (served_step hplaces htally hserved hs).mpr hok⟩

/-- CORRECT: in a run without a stranding step, whenever a fibre is blocked something is coming; and
    a stranding step leaves some fibre, blocked or about to block, with nothing coming. -/
theorem blocked_coming_iff {as : List (Action F B)} {s : State F B}
    (h : Run (system c) (fun s a => ¬ Strands c s a) as s) :
    ((∃ f, Blocked s f) → Coming s) ∧
    ∀ a s', (system c).step s a = some s' →
      (Strands c s a ↔ (∃ f, Waits s' f) ∧ ¬ Coming s' ∧ s'.sem.counter < 1) := by
  obtain ⟨hi, ht, hs⟩ := served_run h
  constructor
  · rintro ⟨f, hf⟩
    rcases hs ⟨f, .inl hf⟩ with hcoming | hopen
    · exact hcoming
    · have := hi.closed f hf
      omega
  · intro a s' hstep
    have hiff := not_congr (served_step hi ht hs hstep)
    rw [not_not] at hiff
    rw [← hiff, Served, Classical.not_imp, not_or, Int.not_le]

/-! ### Several acceptors -/

section
variable [Fintype F] [Fintype B]

instance (s : State F B) (f : F) : Decidable (Woken s f) := inferInstanceAs (Decidable (_ ∨ _))

instance (s : State F B) : Decidable (Coming s) := inferInstanceAs (Decidable (_ ∨ _ ∨ _ ∨ _))

instance (s : State F B) (f : F) : Decidable (Blocked s f) := inferInstanceAs (Decidable (_ = _))

instance (s : State F B) (f : F) : Decidable (Waits s f) := inferInstanceAs (Decidable (_ ∨ _))

instance (s : State F B) : ∀ a, Decidable (Strands c s a)
  | .tryIo .. | .notifyOne .. => inferInstanceAs (Decidable (_ ∧ _))
  | .setupFD .. => inferInstanceAs (Decidable (_ ∧ _))
  | .enter .. | .look .. | .assign .. | .P .. | .resumption .. | .ready .. | .stray .. | .V =>
    inferInstanceAs (Decidable False)

end

/-- Fibre `f` calls `syncIO`, finds no I/O to do and looks for the poller. -/
def looks (f : F) : List (Action F B) := [.enter f, .tryIo f true, .look f]

/-- The registration `p` fires for descriptor `fd`, and `f` is woken. -/
def wakes (p : B) (fd : ℕ) (f : F) : List (Action F B) :=
  [.ready p, .notifyOne ⟨fd, EPOLLIN⟩, .V, .resumption f]

/-- A listening socket. -/
def listening (F : Type) : Site F Unit := ⟨true, 3, .input, fun _ => ()⟩

/-- WRONG: two acceptors are blocked, one event wakes the first, which accepts and leaves: the second
    sleeps behind a disarmed registration. -/
theorem acceptor_stranded : ∃ s, Reach (system (listening (Fin 2))) s ∧
    Blocked s 1 ∧ ¬ Coming s := by
  obtain ⟨s, hreach, hs⟩ := reach_of_exec (system (listening (Fin 2))) State.init
    (looks 0 ++ [.assign 0, .setupFD 0, .P 0] ++ looks 1 ++ [.setupFD 1, .P 1] ++ wakes () 3 0 ++
      [.tryIo 0 false])
    (fun s => decide (Blocked s 1 ∧ ¬ Coming s)) rfl (by decide)
  exact ⟨s, hreach, of_decide_eq_true hs⟩

/-- A listening socket in two clusters, each with a poller of its own. -/
def shared : Site (Fin 2) (Fin 2) := ⟨false, 3, .input, id⟩

/-- Both acceptors find no poller and register the socket; the first one accepts and leaves, with the
    second registration still armed. -/
theorem blocked_coming_iff_acceptors : ∃ as s,
    Run (system shared) (fun s a => ¬ Strands shared s a) as s ∧ Blocked s 1 ∧ s.pc 0 = .out ∧
    ((∃ f, Blocked s f) → Coming s) := by
  obtain ⟨s, hrun, hs⟩ := run_of_execAvoiding (system shared)
    (fun s a => decide (Strands shared s a)) State.init
    (looks 0 ++ looks 1 ++ [.assign 0, .setupFD 0, .assign 1, .setupFD 1, .P 0, .P 1] ++
      wakes 0 3 0 ++ [.tryIo 0 false])
    (fun s => decide (Blocked s 1 ∧ s.pc 0 = .out)) rfl (by decide)
  have hrun' := hrun.mono (H := fun s a => ¬ Strands shared s a)
    fun _ _ h => of_decide_eq_false h
  obtain ⟨hblocked, hout⟩ := of_decide_eq_true hs
  exact ⟨_, s, hrun', hblocked, hout, (blocked_coming_iff hrun').1⟩

end Libfibre.EventScope.OneShot
