import Libfibre.Semaphore.SoleWaiter
import Mathlib.Data.Bool.Basic

/-! `syncIO` (`EventScope.h`) under each way of polling for events, over the epoll item of the
    descriptor as the kernel keeps it: level, edge, one-shot, and on-demand, where a call that finds
    nothing to receive from a socket, or to accept, arms the item again
    (`linux/epoll-ondemand-kernel-5.13.patch`); one for a pipe does not. The kernel's own operations on
    the item are a parameter with the properties that the code relies on. One fibre at a time uses the
    direction of the descriptor; what arrives, and the fibre's reads, race with the poller, which looks
    at the item, disarms it and does its `V` in separate steps.

        trying ─EAGAIN▶ again ▶ looking ▶ creating / modifying ─setupFD▶ beforeP ─P, wait▶ inside
                                   └──────── (edge, level, on-demand) ─────▶ ▲                │ V
                                                                             │                ▼
                                         (one-shot: modifying ◀) again ◀─EAGAIN─ retrying ◀── granted

    Events of `EPOLLERR` and `EPOLLHUP`, which `notifyOne` takes for input, are `EventScope.Dispatch`'s. -/

namespace Libfibre.EventScope.Triggering
open Transition LockedSemaphore BlockingQueue

/-! ### The code -/

/-- Which of `TESTING_EVENTPOLL_EDGE`, `_ONESHOT` and `_ONDEMAND` is the first that is set. -/
inductive Mode where
  | edge
  | oneshot
  | ondemand
  | level
  deriving DecidableEq

/-- `Poller::Variant`. -/
inductive Variant where
  | level
  | edge
  | oneshot
  | onDemand
  deriving DecidableEq

/-- The build options, the template arguments of the calls, and what the descriptor is. -/
structure Config where
  mode : Mode
  tryRead : Bool      -- `TESTING_EVENTPOLL_TRYREAD`
  input : Bool
  accept : Bool
  socket : Bool
  accepts : accept = true → socket = true

/-- The constant `Read`. -/
def Config.read (c : Config) : Bool := c.input && !c.accept

/-- The variant that `syncIO` registers with. -/
def Config.variant (c : Config) : Variant :=
  match c.mode with
  | .edge => if c.input then .edge else .oneshot
  | .oneshot => .oneshot
  | .ondemand => if c.input then .onDemand else .oneshot
  | .level => if c.read then .level else .oneshot

/-- `syncIO` makes an attempt before it waits. -/
def Config.tries (c : Config) : Bool := if c.read then c.tryRead else true

/-- ASSUMED of the kernel: its epoll item of one descriptor, as `epoll(7)` has it. `arm` is `ep_insert`
    or `ep_modify` of a descriptor that is `ready` or not; `take` and `report` are what `ep_send_events`
    does with an item that it finds in the ready list and with one whose event it has copied. -/
structure Epoll where
  Item : Type
  absent : Item
  present : Item → Bool
  enabled : Item → Bool        -- it has event bits beside the private ones
  linked : Item → Bool         -- it is in the ready list
  arm : Bool → Item → Item
  callback : Item → Item       -- `ep_poll_callback`
  take : Item → Item
  report : Variant → Item → Item
  present_absent : present absent = false
  enabled_absent : enabled absent = false
  linked_absent : linked absent = false
  present_arm : ∀ ready i, present (arm ready i) = true
  enabled_arm : ∀ ready i, enabled (arm ready i) = true
  linked_arm : ∀ ready i, linked (arm ready i) = (linked i || ready)
  present_callback : ∀ i, present (callback i) = present i
  enabled_callback : ∀ i, enabled (callback i) = enabled i
  -- a disabled item is passed over
  linked_callback : ∀ i, linked (callback i) = (linked i || enabled i)
  present_take : ∀ i, present (take i) = present i
  enabled_take : ∀ i, enabled (take i) = enabled i
  linked_take : ∀ i, linked (take i) = false
  present_report : ∀ v i, present (report v i) = present i
  -- `EPOLLONESHOT` disables, level triggering puts the item back
  enabled_report : ∀ v i, enabled (report v i) = (enabled i && decide (v = .level ∨ v = .edge))
  linked_report : ∀ v i, linked (report v i) = (linked i || decide (v = .level))

/-- Where the fibre is in `syncIO`. -/
inductive Pc where
  | out
  | trying
  | again (retry : Bool)   -- in the kernel, which has found nothing: before `sock_in_ondemand`
  | looking
  | creating
  | modifying
  | beforeP
  | inside                 -- in `sync.P` or `sync.wait`
  | retrying
  deriving DecidableEq

/-- What the poller has of the descriptor. -/
inductive Stage where
  | idle
  | sending                -- `ep_send_events` has copied an event and is yet to deal with the item
  | fetched                -- before the `V` of `notifyOne`
  deriving DecidableEq

/-- The fibre, the semaphore and the poller's slot, the item, and what there is behind it. -/
structure State (E : Epoll) where
  pc : Pc
  sem : LockedSemaphore.State Unit   -- `fdSyncVector[fd].sync[Input]`
  poller : Bool                      -- `fdSyncVector[fd].poller[Input]` is set
  item : E.Item
  avail : ℕ                          -- what there is to be read, accepted or written to
  callbacks : ℕ                      -- arrivals yet to call `ep_poll_callback`
  stage : Stage

/-- What the I/O function gives: it takes something (nothing at the end of a file), or `EAGAIN` where there
    is nothing, or it fails with another error. -/
inductive Outcome where
  | took (k : ℕ)
  | error
  deriving DecidableEq

/-- The fibre, what is behind the descriptor, the kernel or the poller takes a step. -/
inductive Action where
  | call
  | tryIO (r : Outcome)
  | ondemand
  | look
  | setupFD
  | P
  | resumption
  | arrive (n : ℕ)
  | vanish
  | callback
  | scan
  | finish
  | V
  deriving DecidableEq

variable {E : Epoll}

/-- There is an item. -/
def State.present (s : State E) : Bool := E.present s.item

/-- The item has event bits. -/
def State.enabled (s : State E) : Bool := E.enabled s.item

/-- The item is in the ready list. -/
def State.linked (s : State E) : Bool := E.linked s.item

/-- The fibre goes to another place in `syncIO`. -/
def State.goto (s : State E) (p : Pc) : State E := { s with pc := p }

/-- The kernel enables the item, and links it if there is something already. -/
def State.arm (s : State E) : State E := { s with item := E.arm (decide (0 < s.avail)) s.item }

/-- `sock_in_ondemand`, `ep_modify_ondemand`: a one-shot item that an event has disabled. -/
def sockInOndemand (v : Variant) (s : State E) : State E :=
  if v = .onDemand ∧ s.present = true ∧ s.enabled = false then s.arm else s

/-- `tryIO`, the first time and after `sync.P`. -/
def attempt (s : State E) (retry : Bool) : Outcome → Option (State E)
  | .took k =>
    if s.avail = 0 then some (s.goto (.again retry))
    else if k ≤ s.avail then some (State.goto { s with avail := s.avail - k } .out) else none
  | .error => some (s.goto .out)

/-- `tryIO`: the attempt before the wait, and those after it. -/
def tryIO (s : State E) (r : Outcome) : Option (State E) :=
  match s.pc with
  | .trying => attempt s false r
  | .retrying => attempt s true r
  | _ => none

/-- `-EAGAIN` in `sock_recvmsg_nosec` and `__sys_accept4_file`, and in the calls for other descriptors. -/
def Config.atEagain (c : Config) (s : State E) : State E :=
  if c.socket then sockInOndemand c.variant s else s

/-- The way out of the kernel with `EAGAIN`. -/
def ondemand (c : Config) (s : State E) : Option (State E) :=
  match s.pc with
  | .again false => some ((c.atEagain s).goto .looking)
  | .again true =>
    some ((c.atEagain s).goto (if c.variant = .oneshot then .modifying else .beforeP))
  | _ => none

/-- `if (!poller) poller = &getPoller(fd)`. -/
def look (v : Variant) (s : State E) : State E :=
  if s.poller then s.goto (if v = .oneshot then .modifying else .beforeP)
  else State.goto { s with poller := true } .creating

/-- `epoll_ctl`, which holds the mutex of the epoll set: adding an item that is there, or modifying one
    that is not, fails. -/
def setupFD (s : State E) : Option (State E) :=
  match s.pc with
  | .creating => if s.stage = .sending ∨ s.present then none else some (s.arm.goto .beforeP)
  | .modifying => if s.stage ≠ .sending ∧ s.present then some (s.arm.goto .beforeP) else none
  | _ => none

/-- `sync.wait()` forgets what has come before; `sync.P()` does not. -/
def stepP (v : Variant) (s : State E) : State E :=
  match internalP (if v = .level then s.sem.setCounter 0 else s.sem) () (.wait true) with
  | (sem, none) => State.goto { s with sem := sem } .inside
  | (sem, some _) => State.goto { s with sem := sem } .retrying

/-- `sync[Input].V()`. -/
def State.post (s : State E) : State E := { s with sem := (V true s.sem).1 }

/-- One step. -/
def step (c : Config) (s : State E) : Action → Option (State E)
  | .call => if s.pc = .out then some (s.goto (if c.tries then .trying else .looking)) else none
  | Action.tryIO r => tryIO s r
  | .ondemand => ondemand c s
  | .look => if s.pc = .looking then some (look c.variant s) else none
  | .setupFD => setupFD s
  | .P => if s.pc = .beforeP then some (stepP c.variant s) else none
  | .resumption =>
    (LockedSemaphore.resumption s.sem ()).map fun sem => State.goto { s with sem := sem } .retrying
  | .arrive n => some { s with avail := s.avail + n + 1, callbacks := s.callbacks + 1 }
  | .vanish => if 0 < s.avail then some { s with avail := s.avail - 1 } else none
  | .callback =>
    if 0 < s.callbacks then
      some { s with callbacks := s.callbacks - 1, item := E.callback s.item }
    else none
  | .scan =>
    -- `ep_send_events` asks the descriptor again
    if s.stage = .idle ∧ s.linked then
      some { s with
        item := E.take s.item
        stage := if s.enabled ∧ 0 < s.avail then .sending else .idle }
    else none
  | .finish =>
    if s.stage = .sending then some { s with stage := .fetched, item := E.report c.variant s.item }
    else none
  | .V => if s.stage = .fetched then some (State.post { s with stage := .idle }) else none

/-- Nobody is in `syncIO`, there is no item, and nothing has arrived. -/
def State.init : State E := ⟨.out, LockedSemaphore.start 0, false, E.absent, 0, 0, .idle⟩

/-- All interleavings over an item of the kernel. -/
def system (E : Epoll) (c : Config) : System (State E) Action := ⟨fun s => s = .init, step c⟩

/-- Asleep in `sync.P` or `sync.wait`. -/
def State.asleep (s : State E) : Prop := s.sem.asleep

/-- Asleep, with something there. -/
def State.sleepsOn (s : State E) : Bool := decide (s.sem.pc () = .blocked false) && decide (0 < s.avail)

/-- A wake-up is on its way: the poller has an event, or the item is enabled and in the ready list, or
    enabled with `ep_poll_callback` still to be called. -/
def State.Coming (s : State E) : Prop :=
  s.stage ≠ .idle ∨ s.enabled = true ∧ (s.linked = true ∨ 0 < s.callbacks)

/-! ### The invariant -/

/-- Something tells of what there is, or nothing is there. -/
def State.Told (s : State E) : Prop :=
  s.avail = 0 ∨ 0 < s.callbacks ∨ s.linked = true ∨ s.stage ≠ .idle ∨ 1 ≤ s.sem.counter

/-- The item is enabled, or the poller has been told before it was disabled. -/
def State.Live (s : State E) : Prop := s.enabled = true ∨ s.stage ≠ .idle ∨ 1 ≤ s.sem.counter

/-- The semaphore agrees with where the fibre is. -/
structure Places (s : State E) : Prop where
  sole : Sole s.sem
  inside : s.sem.pc () ≠ .out ↔ s.pc = .inside

/-- Past the look at `poller`. -/
def Pc.registered : Pc → Bool
  | .creating | .modifying | .beforeP | .inside | .retrying | .again true => true
  | _ => false

/-- The poller and its item. -/
structure Items (c : Config) (s : State E) : Prop where
  present : s.present = true ↔ s.poller = true ∧ s.pc ≠ .creating
  registered : s.pc.registered = true → s.poller = true
  modifying : s.pc = .modifying → c.variant = .oneshot
  absent : s.present = false → s.enabled = false
  always : s.present = true → c.variant = .level ∨ c.variant = .edge → s.enabled = true

/-- The fibre has seen that there is nothing, or the item has been armed since. -/
def State.sees (c : Config) (s : State E) : Prop :=
  (∃ retry, s.pc = .again retry) ∨ (s.pc = .looking ∧ c.tries = true) ∨ s.pc = .beforeP ∨ s.asleep

/-- The fibre counts on the item as it is. -/
def State.trusts (c : Config) (s : State E) : Prop :=
  (s.pc = .looking ∧ c.tries = true ∧ s.poller = true ∧ c.variant = .onDemand) ∨ s.pc = .beforeP ∨ s.asleep

/-- INVARIANT: a fibre that is about to sleep, or asleep, counts on an item that is enabled or has just told
    the poller, and an enabled item does not miss what there is. -/
structure Inv (c : Config) (s : State E) : Prop extends Places s, Items c s where
  told : s.sees c → s.enabled = true → s.Told
  live : s.trusts c → s.Live
  level : c.variant = .level → s.present = true →
    s.avail = 0 ∨ 0 < s.callbacks ∨ s.linked = true ∨ s.stage = .sending

/-- The calls try before they wait, or the item tells of what is there already; and a call that finds
    nothing arms an on-demand item. -/
def Config.Sound (c : Config) : Prop :=
  (c.variant = .edge ∨ c.variant = .onDemand → c.tries = true) ∧
  (c.variant = .onDemand → c.socket = true)

variable {c : Config} {s s' t : State E} {a : Action} {p : Pc} {as : List Action}

@[simp] theorem init_present : (State.init : State E).present = false := E.present_absent
@[simp] theorem init_enabled : (State.init : State E).enabled = false := E.enabled_absent
@[simp] theorem arm_present : s.arm.present = true := E.present_arm ..
@[simp] theorem arm_enabled : s.arm.enabled = true := E.enabled_arm ..

theorem inv_init : Inv c (State.init : State E) where
  sole := sole_start
  inside := iff_of_false (fun h => h rfl) nofun
  present := iff_of_false (by simp) fun h => by cases h.1
  registered h := by cases h
  modifying h := by cases h
  absent _ := init_enabled
  always h := by simp at h
  told _ h := by simp at h
  live h := by rcases h with ⟨h, -⟩ | h | h <;> cases h
  level _ h := by simp at h

/-! ### Places -/

theorem Places.out (h : Places s) (hpc : s.pc ≠ .inside) : s.sem.pc () = .out := by
  by_contra hne
  exact hpc (h.inside.mp hne)

theorem Places.awake (h : Places s) (hpc : s.pc ≠ .inside) : ¬ s.asleep :=
  fun hsleep => State.asleep.ne_out hsleep (h.out hpc)

theorem Places.asleep (h : Places s) (hsleep : s.asleep) : s.pc = .inside :=
  h.inside.mp (State.asleep.ne_out hsleep)

/-- The fibre moves, and is not in the semaphore before or after. -/
theorem Places.goto (h : Places s) (hpc : s.pc ≠ .inside) (hp : p ≠ .inside) : Places (s.goto p) :=
  ⟨h.sole, iff_of_false (fun hne => hne (h.out hpc)) hp⟩

/-- Places where the fibre does not count on the item, unless it sleeps. -/
def Config.careless (c : Config) : Pc → Bool
  | .out | .trying | .creating | .modifying | .inside | .retrying => true
  | .looking => !c.tries
  | .again _ | .beforeP => false

theorem not_sees (hawake : ¬ s.asleep) (hpc : c.careless s.pc = true) : ¬ s.sees c := by
  rintro (⟨retry, h⟩ | ⟨h, htries⟩ | h | hsleep)
  · rw [h] at hpc
    cases hpc
  · rw [h, Config.careless, htries] at hpc
    cases hpc
  · rw [h] at hpc
    cases hpc
  · exact hawake hsleep

theorem not_trusts (hawake : ¬ s.asleep) (hpc : c.careless s.pc = true) : ¬ s.trusts c := by
  rintro (⟨h, htries, -⟩ | h | hsleep)
  · rw [h, Config.careless, htries] at hpc
    cases hpc
  · rw [h] at hpc
    cases hpc
  · exact hawake hsleep

/-! ### What the kernel does -/

/-- STEP: the kernel and the poller move, and the fibre's semaphore stays as it is. -/
theorem Inv.kernel (h : Inv c s) (hpc : s'.pc = s.pc) (hsem : s'.sem = s.sem) (hpoller : s'.poller = s.poller)
    (hpresent : s'.present = s.present) (hon : s'.enabled = true → s.enabled = true)
    (hkeep : c.variant = .level ∨ c.variant = .edge → s.enabled = true → s'.enabled = true)
    (htold : s.enabled = true → s.Told → s'.Told) (hlive : s.Live → s'.Live)
    (hlevel : c.variant = .level → s.enabled = true →
      s.avail = 0 ∨ 0 < s.callbacks ∨ s.linked = true ∨ s.stage = .sending →
      s'.avail = 0 ∨ 0 < s'.callbacks ∨ s'.linked = true ∨ s'.stage = .sending) : Inv c s' := by
  have hsees : s'.sees c → s.sees c := by
    rw [State.sees, State.sees, State.asleep, State.asleep, hpc, hsem]
    exact id
  have htrusts : s'.trusts c → s.trusts c := by
    rw [State.trusts, State.trusts, State.asleep, State.asleep, hpc, hsem, hpoller]
    exact id
  refine ⟨⟨hsem ▸ h.sole, ?_⟩, ⟨?_, ?_, ?_, ?_, ?_⟩, ?_, ?_, ?_⟩
  · rw [hsem, hpc]
    exact h.inside
  · rw [hpresent, hpoller, hpc]
    exact h.present
  · rw [hpoller, hpc]
    exact h.registered
  · rw [hpc]
    exact h.modifying
  · intro hnone
    rw [hpresent] at hnone
    by_contra hne
    have hoff := h.absent hnone
    rw [hon (Bool.not_eq_false _ ▸ hne)] at hoff
    cases hoff
  · intro hp hv
    rw [hpresent] at hp
    exact hkeep hv (h.always hp hv)
  · intro hs hen
    exact htold (hon hen) (h.told (hsees hs) (hon hen))
  · intro ht
    exact hlive (h.live (htrusts ht))
  · intro hv hp
    rw [hpresent] at hp
    exact hlevel hv (h.always hp (.inl hv)) (h.level hv hp)

/-- What there is becomes less. -/
theorem Inv.drain (h : Inv c s) {n : ℕ} (hn : n ≤ s.avail) : Inv c { s with avail := n } := by
  have hzero : s.avail = 0 → n = 0 := by
    intro hs
    omega
  exact h.kernel rfl rfl rfl rfl id (fun _ => id) (fun _ ht => ht.imp_left hzero) id
    fun _ _ hl => hl.imp_left hzero

theorem Inv.arrive (h : Inv c s) (n : ℕ) :
    Inv c { s with avail := s.avail + n + 1, callbacks := s.callbacks + 1 } :=
  h.kernel rfl rfl rfl rfl id (fun _ => id) (fun _ _ => .inr (.inl (Nat.succ_pos _))) id
    fun _ _ _ => .inr (.inl (Nat.succ_pos _))

/-- `ep_poll_callback` links an enabled item. -/
theorem Inv.callback (h : Inv c s) :
    Inv c { s with callbacks := s.callbacks - 1, item := E.callback s.item } := by
  have hon : E.enabled (E.callback s.item) = s.enabled := E.enabled_callback _
  have hlinked : s.enabled = true → E.linked (E.callback s.item) = true := by
    intro hen
    rw [E.linked_callback, show E.enabled s.item = true from hen, Bool.or_true]
  exact h.kernel rfl rfl rfl (E.present_callback _) hon.symm.trans (fun _ => hon.trans)
    (fun hen _ => .inr (.inr (.inl (hlinked hen)))) (fun hl => hl.imp_left hon.trans)
    fun _ hen _ => .inr (.inr (.inl (hlinked hen)))

/-- `ep_send_events` takes an item from the list, and the event if there is something. -/
theorem Inv.scan (h : Inv c s) (hidle : s.stage = .idle) :
    Inv c { s with
      item := E.take s.item
      stage := if s.enabled = true ∧ 0 < s.avail then .sending else .idle } := by
  have hon : E.enabled (E.take s.item) = s.enabled := E.enabled_take _
  have hcases : s.enabled = true →
      s.avail = 0 ∨ (if s.enabled = true ∧ 0 < s.avail then Stage.sending else .idle) = .sending := by
    intro hen
    rcases Nat.eq_zero_or_pos s.avail with hzero | hpos
    · exact .inl hzero
    · exact .inr (if_pos ⟨hen, hpos⟩)
  refine h.kernel rfl rfl rfl (E.present_take _) hon.symm.trans (fun _ => hon.trans)
    (fun hen _ => ?_) (fun hl => ?_) fun _ hen _ => ?_
  · rcases hcases hen with hzero | hsend
    · exact .inl hzero
    · exact .inr (.inr (.inr (.inl (by rw [hsend]; nofun))))
  · rcases hl with hen | hstage | hopen
    · exact .inl (hon.trans hen)
    · exact absurd hidle hstage
    · exact .inr (.inr hopen)
  · exact (hcases hen).imp_right fun hsend => .inr (.inr hsend)

/-- `ep_send_events` deals with the item: a one-shot item is disabled, one with level triggering goes back. -/
theorem Inv.finish (h : Inv c s) :
    Inv c { s with stage := .fetched, item := E.report c.variant s.item } := by
  have hoff : E.enabled (E.report c.variant s.item) = true → s.enabled = true := by
    rw [E.enabled_report, Bool.and_eq_true]
    exact And.left
  have hkeep : c.variant = .level ∨ c.variant = .edge → s.enabled = true →
      E.enabled (E.report c.variant s.item) = true := by
    intro hv hen
    rw [E.enabled_report, decide_eq_true hv, Bool.and_true]
    exact hen
  have hlink : c.variant = .level → E.linked (E.report c.variant s.item) = true := by
    intro hv
    rw [E.linked_report, decide_eq_true hv, Bool.or_true]
  exact h.kernel rfl rfl rfl (E.present_report ..) hoff hkeep
    (fun _ _ => .inr (.inr (.inr (.inl nofun)))) (fun _ => .inr (.inl nofun))
    fun hv _ _ => .inr (.inr (.inl (hlink hv)))

theorem arm_linked (s : State E) : s.avail = 0 ∨ s.arm.linked = true := by
  refine (Nat.eq_zero_or_pos s.avail).imp_right fun hpos => ?_
  show E.linked (E.arm (decide (0 < s.avail)) s.item) = true
  rw [E.linked_arm, decide_eq_true hpos, Bool.or_true]

/-- The item is armed in the place of the fibre, which stays where it is. -/
theorem Inv.arm (h : Inv c s) (hpresent : s.present = true) : Inv c s.arm where
  sole := h.sole
  inside := h.inside
  present := iff_of_true arm_present (h.present.mp hpresent)
  registered := h.registered
  modifying := h.modifying
  absent hnone := by simp at hnone
  always _ _ := arm_enabled
  told _ _ := (arm_linked s).imp_right fun hl => .inr (.inl hl)
  live _ := .inl arm_enabled
  level _ _ := (arm_linked s).imp_right fun hl => .inr (.inl hl)

/-- `V`: the poller's event reaches the fibre, or the semaphore. -/
theorem Inv.post (h : Inv c s) (hstage : s.stage = .fetched) :
    Inv c (State.post { s with stage := .idle }) := by
  have hlevel : c.variant = .level → s.present = true →
      s.avail = 0 ∨ 0 < s.callbacks ∨ s.linked = true ∨ Stage.idle = .sending := by
    intro hv hp
    rcases h.level hv hp with hzero | hcalls | hlinked | hsend
    · exact .inl hzero
    · exact .inr (.inl hcalls)
    · exact .inr (.inr (.inl hlinked))
    · rw [hstage] at hsend
      cases hsend
  rcases h.sole.V with ⟨hsleep, hsole, hgranted⟩ | ⟨hawake, hopen⟩
  · have hinside := h.toPlaces.asleep hsleep
    have hnot : ¬ (State.post { s with stage := .idle }).asleep := fun hs =>
      State.asleep.ne_granted hs hgranted
    have hin : (LockedSemaphore.V true s.sem).1.pc () ≠ .out := by
      rw [hgranted]
      nofun
    have hpc : c.careless (State.post { s with stage := .idle }).pc = true := by
      rw [State.post, hinside]
      rfl
    exact ⟨⟨hsole, iff_of_true hin hinside⟩, ⟨h.present, h.registered, h.modifying, h.absent, h.always⟩,
      fun hs => absurd hs (not_sees hnot hpc), fun ht => absurd ht (not_trusts hnot hpc), hlevel⟩
  · have hpost : State.post { s with stage := .idle } =
        { s with stage := .idle, sem := s.sem.setCounter 1 } := by
      rw [State.post, hopen]
    rw [hpost]
    have hone : 1 ≤ (s.sem.setCounter 1).counter := le_refl _
    exact ⟨⟨h.sole.setCounter hawake 1, h.inside⟩, ⟨h.present, h.registered, h.modifying, h.absent, h.always⟩,
      fun _ _ => .inr (.inr (.inr (.inr hone))), fun _ => .inr (.inr hone), hlevel⟩

/-! ### What the fibre does -/

/-- The fibre moves, and is not in the semaphore, nor about to create the item, before or after. -/
theorem Inv.goto (h : Inv c s) (hpc : s.pc ≠ .inside) (hnew : s.pc ≠ .creating) (hp : p ≠ .inside)
    (hcreating : p ≠ .creating) (hpoller : p.registered = true → s.poller = true)
    (hmod : p = .modifying → c.variant = .oneshot) (htold : (s.goto p).sees c → s.enabled = true → s.Told)
    (hlive : (s.goto p).trusts c → s.Live) : Inv c (s.goto p) :=
  have hpresent : s.present = true ↔ s.poller = true ∧ p ≠ .creating :=
    h.present.trans (and_congr_right fun _ => iff_of_true hnew hcreating)
  ⟨h.toPlaces.goto hpc hp, ⟨hpresent, hpoller, hmod, h.absent, h.always⟩, htold, hlive, h.level⟩

/-- The fibre goes where it does not count on the item. -/
theorem Inv.leave (h : Inv c s) (hpc : s.pc ≠ .inside) (hnew : s.pc ≠ .creating) (hp : c.careless p = true)
    (hin : p ≠ .inside) (hcreating : p ≠ .creating) (hpoller : p.registered = true → s.poller = true)
    (hmod : p = .modifying → c.variant = .oneshot) : Inv c (s.goto p) := by
  have hawake : ¬ (s.goto p).asleep := h.toPlaces.awake hpc
  exact h.goto hpc hnew hin hcreating hpoller hmod (fun hs => absurd hs (not_sees hawake hp))
    fun ht => absurd ht (not_trusts hawake hp)

/-- The I/O function finds nothing. -/
theorem Inv.eagain (h : Inv c s) (hpc : s.pc ≠ .inside) (hnew : s.pc ≠ .creating) (hzero : s.avail = 0)
    {retry : Bool} (hpoller : retry = true → s.poller = true) : Inv c (s.goto (.again retry)) := by
  refine h.goto hpc hnew nofun nofun (fun hr => ?_) nofun (fun _ _ => .inl hzero) fun ht => ?_
  · cases retry with
    | true => exact hpoller rfl
    | false => cases hr
  · rcases ht with ⟨hpc, -⟩ | hpc | hs
    · cases hpc
    · cases hpc
    · exact absurd hs (h.toPlaces.awake hpc)

/-- The fibre is about to wait. -/
theorem Inv.wait (h : Inv c s) (hpc : s.pc ≠ .inside) (hnew : s.pc ≠ .creating) (hpoller : s.poller = true)
    (htold : s.enabled = true → s.Told) (hlive : s.Live) : Inv c (s.goto .beforeP) :=
  h.goto hpc hnew nofun nofun (fun _ => hpoller) nofun (fun _ => htold) fun _ => hlive

/-- An attempt of the I/O function, with whatever outcome. -/
theorem Inv.attempt (h : Inv c s) (hpc : s.pc ≠ .inside) (hnew : s.pc ≠ .creating) {retry : Bool}
    (hpoller : retry = true → s.poller = true) {r : Outcome} (hs : attempt s retry r = some s') :
    Inv c s' := by
  cases r with
  | took k =>
    rw [Triggering.attempt] at hs
    split at hs
    · rename_i hzero
      obtain rfl := Option.some.inj hs
      exact h.eagain hpc hnew hzero hpoller
    · obtain ⟨-, hs⟩ := Option.ite_none_right_eq_some.mp hs
      obtain rfl := Option.some.inj hs
      exact (h.drain (Nat.sub_le s.avail k)).leave hpc hnew rfl nofun nofun nofun nofun
  | error =>
    obtain rfl := Option.some.inj hs
    exact h.leave hpc hnew rfl nofun nofun nofun nofun

theorem Inv.tryIO (h : Inv c s) {r : Outcome} (hs : tryIO s r = some s') : Inv c s' := by
  rw [Triggering.tryIO] at hs
  split at hs
  · rename_i hpc
    have hfirst : false = true → s.poller = true := fun hr => absurd hr Bool.false_ne_true
    exact h.attempt (by rw [hpc]; nofun) (by rw [hpc]; nofun) hfirst hs
  · rename_i hpc
    exact h.attempt (by rw [hpc]; nofun) (by rw [hpc]; nofun)
      (fun _ => h.registered (by rw [hpc]; rfl)) hs
  · cases hs

/-- On the way out of the kernel an item that an event has disabled is armed. -/
theorem Inv.rearm (h : Inv c s) : Inv c (c.atEagain s) := by
  rw [Config.atEagain, Triggering.sockInOndemand]
  split
  · split
    · rename_i hcond
      exact h.arm hcond.2.1
    · exact h
  · exact h

theorem atEagain_rest (c : Config) (s : State E) :
    (c.atEagain s).pc = s.pc ∧ (c.atEagain s).poller = s.poller := by
  rw [Config.atEagain, sockInOndemand]
  split
  · split
    · exact ⟨rfl, rfl⟩
    · exact ⟨rfl, rfl⟩
  · exact ⟨rfl, rfl⟩

theorem atEagain_enabled (hsocket : c.socket = true) (hv : c.variant = .onDemand)
    (h : s.present = true) : (c.atEagain s).enabled = true := by
  rw [Config.atEagain, if_pos hsocket, sockInOndemand]
  split
  · exact arm_enabled
  · rename_i hcond
    cases hen : s.enabled with
    | true => rfl
    | false => exact absurd ⟨hv, h, hen⟩ hcond

/-- The call returns `EAGAIN`: whatever comes from now on, an enabled item will tell of. -/
theorem Inv.ondemand (h : Inv c s) (hc : c.Sound) (hs : ondemand c s = some s') : Inv c s' := by
  have hk := h.rearm
  obtain ⟨hkpc, hkpoller⟩ := atEagain_rest c s
  have hleft : ∀ retry, s.pc = .again retry → (c.atEagain s).pc ≠ .inside ∧
      (c.atEagain s).pc ≠ .creating ∧ ((c.atEagain s).enabled = true → (c.atEagain s).Told) := by
    intro retry hpc
    rw [hkpc, hpc]
    exact ⟨nofun, nofun, hk.told (.inl ⟨retry, hkpc.trans hpc⟩)⟩
  have hdemand : ∀ retry, s.pc = .again retry → c.variant = .onDemand → s.poller = true →
      (c.atEagain s).Live := by
    intro retry hpc hv hpoller
    exact .inl (atEagain_enabled (hc.2 hv) hv (h.present.mpr ⟨hpoller, by rw [hpc]; nofun⟩))
  rw [Triggering.ondemand] at hs
  split at hs
  · rename_i hpc
    obtain rfl := Option.some.inj hs
    obtain ⟨hin, hnew, htold⟩ := hleft false hpc
    refine hk.goto hin hnew nofun nofun nofun nofun (fun _ => htold) fun ht => ?_
    rcases ht with ⟨-, -, hpoller, hv⟩ | hpc' | hsleep
    · exact hdemand false hpc hv (hkpoller.symm.trans hpoller)
    · cases hpc'
    · exact absurd hsleep (hk.toPlaces.awake hin)
  · rename_i hpc
    obtain rfl := Option.some.inj hs
    obtain ⟨hin, hnew, htold⟩ := hleft true hpc
    have hpoller : s.poller = true := h.registered (by rw [hpc]; rfl)
    split
    · rename_i hv
      exact hk.leave hin hnew rfl nofun nofun (fun _ => hkpoller.trans hpoller) fun _ => hv
    · rename_i hv
      refine hk.wait hin hnew (hkpoller.trans hpoller) htold ?_
      have hpresent : (c.atEagain s).present = true :=
        hk.present.mpr ⟨hkpoller.trans hpoller, hnew⟩
      cases hvar : c.variant with
      | onDemand => exact hdemand true hpc hvar hpoller
      | level => exact .inl (hk.always hpresent (.inl hvar))
      | edge => exact .inl (hk.always hpresent (.inr hvar))
      | oneshot => exact absurd hvar hv
  · cases hs

/-- The look at `poller`. Where the item is not armed now, the attempt before has told how it stands. -/
theorem Inv.look (h : Inv c s) (hc : c.Sound) (hpc : s.pc = .looking) : Inv c (look c.variant s) := by
  have hin : s.pc ≠ .inside := by rw [hpc]; nofun
  have hnew : s.pc ≠ .creating := by rw [hpc]; nofun
  have hawake := h.toPlaces.awake hin
  rw [Triggering.look]
  split
  · rename_i hpoller
    have hpresent : s.present = true := h.present.mpr ⟨hpoller, hnew⟩
    split
    · rename_i hv
      exact h.leave hin hnew rfl nofun nofun (fun _ => hpoller) fun _ => hv
    · rename_i hv
      have hsees : c.tries = true → s.enabled = true → s.Told := fun ht => h.told (.inr (.inl ⟨hpc, ht⟩))
      refine h.wait hin hnew hpoller ?_ ?_
      · intro hen
        cases hvar : c.variant with
        | level =>
          rcases h.level hvar hpresent with hzero | hcalls | hlinked | hsend
          · exact .inl hzero
          · exact .inr (.inl hcalls)
          · exact .inr (.inr (.inl hlinked))
          · exact .inr (.inr (.inr (.inl (by rw [hsend]; nofun))))
        | edge => exact hsees (hc.1 (.inl hvar)) hen
        | onDemand => exact hsees (hc.1 (.inr hvar)) hen
        | oneshot => exact absurd hvar hv
      · cases hvar : c.variant with
        | level => exact .inl (h.always hpresent (.inl hvar))
        | edge => exact .inl (h.always hpresent (.inr hvar))
        | onDemand => exact h.live (.inl ⟨hpc, hc.1 (.inr hvar), hpoller, hvar⟩)
        | oneshot => exact absurd hvar hv
  · rename_i hpoller
    have hnone : s.present = false := by
      cases hp : s.present with
      | true => exact absurd (h.present.mp hp).1 hpoller
      | false => rfl
    refine ⟨⟨h.sole, iff_of_false (fun hne => hne (h.toPlaces.out hin)) nofun⟩,
      ⟨iff_of_false (hnone ▸ Bool.false_ne_true) fun hp => hp.2 rfl, fun _ => rfl, nofun, h.absent, h.always⟩,
      fun hs => absurd hs (not_sees (s := State.goto { s with poller := true } .creating) hawake rfl),
      fun ht => absurd ht (not_trusts (s := State.goto { s with poller := true } .creating) hawake
        rfl), h.level⟩

/-- `setupFD` arms the item, new or not. -/
theorem Inv.armed (h : Inv c s) (hpc : s.pc ≠ .inside) (hpoller : s.poller = true) :
    Inv c (s.arm.goto .beforeP) where
  sole := h.sole
  inside := iff_of_false (fun hne => hne (h.toPlaces.out hpc)) nofun
  present := iff_of_true arm_present ⟨hpoller, nofun⟩
  registered _ := hpoller
  modifying := nofun
  absent hnone := absurd hnone (by rw [show (s.arm.goto .beforeP).present = true from arm_present]; nofun)
  always _ _ := arm_enabled
  told _ _ := (arm_linked s).imp_right fun hl => .inr (.inl hl)
  live _ := .inl arm_enabled
  level _ _ := (arm_linked s).imp_right fun hl => .inr (.inl hl)

theorem Inv.setupFD (h : Inv c s) (hs : setupFD s = some s') : Inv c s' := by
  rw [Triggering.setupFD] at hs
  split at hs
  · rename_i hpc
    obtain ⟨-, hs⟩ := Option.ite_none_left_eq_some.mp hs
    obtain rfl := Option.some.inj hs
    exact h.armed (by rw [hpc]; nofun) (h.registered (by rw [hpc]; rfl))
  · rename_i hpc
    obtain ⟨-, hs⟩ := Option.ite_none_right_eq_some.mp hs
    obtain rfl := Option.some.inj hs
    exact h.armed (by rw [hpc]; nofun) (h.registered (by rw [hpc]; rfl))
  · cases hs

/-- The fibre has a permit, and is out of the semaphore. -/
theorem Inv.retry (h : Inv c s) {sem : LockedSemaphore.State Unit} (hsole : Sole sem)
    (hout : sem.pc () = .out) (hnew : s.pc ≠ .creating) (hpoller : s.poller = true) :
    Inv c (State.goto { s with sem := sem } .retrying) := by
  have hawake : ¬ sem.asleep := fun hsleep => State.asleep.ne_out hsleep hout
  refine ⟨⟨hsole, iff_of_false (fun hne => hne hout) nofun⟩,
    ⟨h.present.trans (and_congr_right fun _ => iff_of_true hnew nofun), fun _ => hpoller, nofun,
      h.absent, h.always⟩,
    fun hs => absurd hs (not_sees (s := State.goto { s with sem := sem } .retrying) hawake rfl),
    fun ht => absurd ht (not_trusts (s := State.goto { s with sem := sem } .retrying) hawake rfl), h.level⟩

/-- `P` and `wait`: the fibre falls asleep only with the item enabled or an event with the poller. -/
theorem Inv.stepP (h : Inv c s) (hpc : s.pc = .beforeP) : Inv c (stepP c.variant s) := by
  have hin : s.pc ≠ .inside := by rw [hpc]; nofun
  have hnew : s.pc ≠ .creating := by rw [hpc]; nofun
  have hpoller : s.poller = true := h.registered (by rw [hpc]; rfl)
  have hpresent : s.present = true := h.present.mpr ⟨hpoller, hnew⟩
  have hout := h.toPlaces.out hin
  have hsem : Sole (if c.variant = .level then s.sem.setCounter 0 else s.sem) ∧
      (if c.variant = .level then s.sem.setCounter 0 else s.sem).pc () = .out := by
    split
    · exact ⟨h.sole.setCounter (h.toPlaces.awake hin) 0, hout⟩
    · exact ⟨h.sole, hout⟩
  rw [Triggering.stepP]
  rcases hsem.1.internalP hsem.2 with ⟨hc, sem, hP, hsole, hsleep, -⟩ | ⟨-, hP⟩
  · rw [hP]
    have hkept : (s.enabled = true → s.avail = 0 ∨ 0 < s.callbacks ∨ s.linked = true ∨ s.stage ≠ .idle) ∧
        (s.enabled = true ∨ s.stage ≠ .idle) := by
      by_cases hv : c.variant = .level
      · refine ⟨fun _ => ?_, .inl (h.always hpresent (.inl hv))⟩
        rcases h.level hv hpresent with hzero | hcalls | hlinked | hsend
        · exact .inl hzero
        · exact .inr (.inl hcalls)
        · exact .inr (.inr (.inl hlinked))
        · exact .inr (.inr (.inr (by rw [hsend]; nofun)))
      · rw [if_neg hv] at hc
        have hclosed : ¬ 1 ≤ s.sem.counter := by omega
        have htold := h.told (.inr (.inr (.inl hpc)))
        have hlive := h.live (.inr (.inl hpc))
        rw [State.Told] at htold
        rw [State.Live] at hlive
        tauto
    have hinside : sem.pc () ≠ .out := State.asleep.ne_out hsleep
    exact ⟨⟨hsole, iff_of_true hinside rfl⟩,
      ⟨h.present.trans (and_congr_right fun _ => iff_of_true hnew nofun), fun _ => hpoller, nofun, h.absent,
        h.always⟩,
      fun _ hen => (hkept.1 hen).imp_right fun ht => ht.imp_right fun ht => ht.imp_right .inl,
      fun _ => hkept.2.imp_right .inl, h.level⟩
  · rw [hP]
    exact h.retry (hsem.1.setCounter (fun hs => State.asleep.ne_out hs hsem.2) _) hsem.2 hnew hpoller

/-- STEP: every step keeps the invariant. -/
theorem Inv.step (h : Inv c s) (hc : c.Sound) (hs : step c s a = some s') : Inv c s' := by
  cases a with
  | call =>
    obtain ⟨hpc, hs⟩ := Option.ite_none_right_eq_some.mp hs
    obtain rfl := Option.some.inj hs
    have hin : s.pc ≠ .inside := by rw [hpc]; nofun
    have hnew : s.pc ≠ .creating := by rw [hpc]; nofun
    cases htries : c.tries with
    | true => exact h.leave hin hnew rfl nofun nofun nofun nofun
    | false =>
      have hp : c.careless .looking = true := by
        rw [Config.careless, htries]
        rfl
      exact h.leave hin hnew hp nofun nofun nofun nofun
  | tryIO r => exact Inv.tryIO h hs
  | ondemand => exact h.ondemand hc hs
  | look =>
    obtain ⟨hpc, hs⟩ := Option.ite_none_right_eq_some.mp hs
    obtain rfl := Option.some.inj hs
    exact h.look hc hpc
  | setupFD => exact h.setupFD hs
  | P =>
    obtain ⟨hpc, hs⟩ := Option.ite_none_right_eq_some.mp hs
    obtain rfl := Option.some.inj hs
    exact h.stepP hpc
  | resumption =>
    obtain ⟨sem, hsem, hs⟩ := Option.map_eq_some_iff.mp hs
    subst hs
    obtain ⟨hgranted, hsole, hout, -⟩ := h.sole.resumption hsem
    have hpc : s.pc = .inside := h.inside.mp (by rw [hgranted]; nofun)
    exact h.retry hsole hout (by rw [hpc]; nofun) (h.registered (by rw [hpc]; rfl))
  | arrive n =>
    obtain rfl := Option.some.inj hs
    exact h.arrive n
  | vanish =>
    obtain ⟨-, hs⟩ := Option.ite_none_right_eq_some.mp hs
    obtain rfl := Option.some.inj hs
    exact h.drain (Nat.sub_le s.avail 1)
  | callback =>
    obtain ⟨-, hs⟩ := Option.ite_none_right_eq_some.mp hs
    obtain rfl := Option.some.inj hs
    exact h.callback
  | scan =>
    obtain ⟨⟨hidle, -⟩, hs⟩ := Option.ite_none_right_eq_some.mp hs
    obtain rfl := Option.some.inj hs
    exact h.scan hidle
  | finish =>
    obtain ⟨-, hs⟩ := Option.ite_none_right_eq_some.mp hs
    obtain rfl := Option.some.inj hs
    exact h.finish
  | V =>
    obtain ⟨hstage, hs⟩ := Option.ite_none_right_eq_some.mp hs
    obtain rfl := Option.some.inj hs
    exact h.post hstage

theorem inv_of_reach (hc : c.Sound) (h : Reach (system E c) s) : Inv c s :=
  h.inv (fun _ hs => hs ▸ inv_init) fun _ _ _ hI hs => hI.step hc hs

/-- `epoll_ctl` is never refused, and modifies one-shot items only: one of the other kinds must not be, as
    a receive call may arm it at the same time. -/
theorem setupFD_accepted (hc : c.Sound) (h : Reach (system E c) s) :
    (s.pc = .creating ∨ s.pc = .modifying → s.stage ≠ .sending → (setupFD s).isSome = true) ∧
    (s.pc = .modifying → c.variant = .oneshot) := by
  have hI := inv_of_reach hc h
  refine ⟨?_, hI.modifying⟩
  rintro (hpc | hpc) hstage
  · have hnone : s.present = false := by
      cases hp : s.present with
      | true => exact absurd hpc (hI.present.mp hp).2
      | false => rfl
    rw [setupFD, hpc]
    simp [hstage, hnone]
  · have hpresent : s.present = true := hI.present.mpr ⟨hI.registered (by rw [hpc]; rfl), by rw [hpc]; nofun⟩
    rw [setupFD, hpc]
    simp [hstage, hpresent]

end Libfibre.EventScope.Triggering
