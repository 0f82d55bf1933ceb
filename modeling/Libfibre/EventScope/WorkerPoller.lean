import Libfibre.EventScope.PollerFibre

/-! `WorkerPoller` (`Poller.h`, `Poller.cc`): with `TESTING_WORKER_POLLER` a worker has a poller of its own
    and halts in its `epoll_wait`. An eventfd is in the epoll set, level-triggered; `resume` writes to
    it, and an event of it opens the semaphore of its descriptor like any other event would. The worker
    leaves `halt` when it finds that semaphore open, and then reads the eventfd back to zero.

        running ─▶ waiting poll ─▶ notifying ─▶ running
           │ block
           ▼
        halting ─▶ waiting ─▶ notifying ─▶ blocking ─(closed)─▶ halting, or waiting again
                                               └──(open)──▶ reading ─▶ running

    A look at the epoll set reports what the kernel has ready, other descriptors first or not, at most
    `MaxPoll` of them, or is interrupted. A worker is resumed by whoever takes it out of the idle
    manager's list, and is put there before it halts. -/

namespace Libfibre.EventScope.WorkerPoller
open Transition LockedSemaphore BlockingQueue

/-- What the worker polls for. -/
inductive PollType where
  | poll
  | suspend
  | trying
  deriving DecidableEq

/-- Where the worker is. -/
inductive Pc where
  | running
  | halting                                        -- in `halt`, between two attempts
  | waiting (pt : PollType)                        -- before `doPoll`
  | notifying (pt : PollType) (rest : List Event)
  | blocking (pt : PollType)                       -- before `tryblock`
  | reading                                        -- before `read`
  deriving DecidableEq

/-- The worker, its eventfd and the semaphore of that descriptor. -/
structure State where
  pc : Pc
  eventfd : ℕ
  sem : LockedSemaphore.State Unit   -- `fdSyncVector[haltFD].sync[true]`
  enlisted : Bool                    -- in the idle manager's list of waiting workers

/-- The worker, or one that resumes it, takes a step. -/
inductive Action where
  | poll
  | block
  | trySuspend
  | suspend
  | doPoll (evs : Option (List Event))     -- none: `EINTR`
  | notify
  | notified
  | tryblock
  | read
  | resume
  deriving DecidableEq

/-- The worker goes to another place. -/
def State.goto (s : State) (p : Pc) : State := { s with pc := p }

/-- `sync[true].V()`. -/
def State.post (s : State) : State := { s with sem := (V true s.sem).1 }

variable (haltFD : ℕ)

/-- What `epoll_wait` reports of the eventfd. -/
def haltEvent : Event := ⟨haltFD, EPOLLIN⟩

/-- What `epoll_wait` may report: a descriptor once, the eventfd if its count is not zero, and then for
    certain unless there is no room. -/
def Reports (s : State) (pt : PollType) (evs : List Event) : Prop :=
  evs.length ≤ PollerFibre.MaxPoll ∧ (evs.map Event.fd).Nodup ∧ (pt = .suspend → evs ≠ []) ∧
  (∀ ev ∈ evs, ev.fd = haltFD → ev = haltEvent haltFD ∧ 0 < s.eventfd) ∧
  (0 < s.eventfd → evs.length < PollerFibre.MaxPoll → haltEvent haltFD ∈ evs)

instance (s : State) (pt : PollType) (evs : List Event) : Decidable (Reports haltFD s pt evs) :=
  inferInstanceAs (Decidable (_ ∧ _ ∧ _ ∧ _ ∧ _))

/-- `tryblock` and the branch on its result. -/
def tryblock (s : State) (pt : PollType) : State :=
  match tryP s.sem () with
  | (sem, some .wasOpen) => State.goto { s with sem := sem } .reading
  | (sem, _) => State.goto { s with sem := sem } (if pt = .suspend then .waiting .suspend else .halting)

/-- One step. -/
def step (s : State) : Action → Option State
  | .poll => if s.pc = .running then some (s.goto (.waiting .poll)) else none
  | .block => if s.pc = .running then some (State.goto { s with enlisted := true } .halting) else none
  | .trySuspend => if s.pc = .halting then some (s.goto (.waiting .trying)) else none
  | .suspend => if s.pc = .halting then some (s.goto (.waiting .suspend)) else none
  | .doPoll evs =>
    match s.pc with
    | .waiting pt =>
      if ∀ e, evs = some e → Reports haltFD s pt e then some (s.goto (.notifying pt (evs.getD []))) else none
    | _ => none
  | .notify =>
    match s.pc with
    | .notifying pt (ev :: rest) =>
      let s := s.goto (.notifying pt rest)
      some (if notifyOne ev = some (haltFD, .input) then s.post else s)
    | _ => none
  | .notified =>
    match s.pc with
    | .notifying pt [] => some (s.goto (if pt = .poll then .running else .blocking pt))
    | _ => none
  | .tryblock =>
    match s.pc with
    | .blocking pt => some (tryblock s pt)
    | _ => none
  | .read =>
    -- `RASSERT(count == 1)`; with nothing to read `SYSCALLIO` fails
    if s.pc = .reading ∧ s.eventfd = 1 then some (State.goto { s with eventfd := 0 } .running) else none
  | .resume =>
    if s.enlisted then some { s with enlisted := false, eventfd := s.eventfd + 1 } else none

/-- The worker runs, and nobody has resumed it. -/
def State.init : State := ⟨.running, 0, LockedSemaphore.start 0, false⟩

/-- All interleavings with those that resume the worker. -/
def system : System State Action := ⟨fun s => s = .init, step haltFD⟩

/-! ### The invariant -/

/-- The worker has nothing else to do. -/
def PollType.halts : PollType → Bool
  | .poll => false
  | _ => true

/-- In `halt`. -/
def Pc.halts : Pc → Bool
  | .running => false
  | .waiting pt | .notifying pt _ | .blocking pt => pt.halts
  | .halting | .reading => true

/-- Between `doPoll` and `tryblock`. -/
def Pc.delivers : Pc → Bool
  | .notifying _ _ | .blocking _ => true
  | _ => false

/-- Events that are fetched and not delivered. -/
def Pc.rest : Pc → List Event
  | .notifying _ rest => rest
  | _ => []

/-- The event of the eventfd is in the worker's hands. -/
def State.Caught (s : State) : Prop :=
  haltEvent haltFD ∈ s.pc.rest ∨ s.sem.counter = 1 ∨ s.pc = .reading

/-- Resumed, and not back from `halt`. -/
def State.awaited (s : State) : ℕ := if s.pc.halts && !s.enlisted then 1 else 0

/-- INVARIANT: the eventfd counts the one time that the worker has been resumed and does not know yet, or
    knows and has not said so; the semaphore is open only on the way from the event to `tryblock`. -/
structure Inv (s : State) : Prop where
  sole : Sole s.sem
  out : s.sem.pc () = .out
  counter : s.sem.counter = 0 ∨ s.sem.counter = 1 ∧ s.pc.delivers = true
  token : s.eventfd = s.awaited
  listed : s.enlisted = true → s.pc.halts = true
  fits : ∀ pt, s.pc = .blocking pt → pt.halts = true
  fetched : ∀ ev ∈ s.pc.rest, ev.fd = haltFD → ev = haltEvent haltFD
  caught : s.Caught haltFD → s.awaited = 1

variable {haltFD} {s s' t : State} {a : Action} {p : Pc} {pt : PollType} {ev : Event} {rest : List Event}

theorem init_inv : Inv haltFD State.init where
  sole := sole_start
  out := rfl
  counter := .inl rfl
  token := rfl
  listed := nofun
  fits := nofun
  fetched := nofun
  caught h := by rcases h with h | h | h <;> cases h

theorem notifyOne_haltEvent : notifyOne (haltEvent haltFD) = some (haltFD, .input) := by
  have hin : (EPOLLIN &&& (EPOLLIN ||| EPOLLPRI ||| EPOLLRDHUP ||| EPOLLHUP ||| EPOLLERR) != 0#32)
      = true := by
    decide
  exact if_pos hin

theorem notifyOne_fd {d : Direction} {fd : ℕ} (h : notifyOne ev = some (fd, d)) : ev.fd = fd := by
  rw [notifyOne] at h
  split_ifs at h <;> exact congrArg Prod.fst (Option.some.inj h)

/-- The worker moves, with nothing but its place changed. -/
theorem Inv.goto (h : Inv haltFD s) (hhalts : p.halts = s.pc.halts)
    (hdelivers : s.sem.counter = 1 → p.delivers = true) (hreading : p = .reading → s.pc = .reading)
    (hfits : ∀ pt, p = .blocking pt → pt.halts = true) (hrest : p.rest ⊆ s.pc.rest) :
    Inv haltFD (s.goto p) := by
  have hawaited : (s.goto p).awaited = s.awaited := by rw [State.awaited, State.awaited, State.goto, hhalts]
  refine ⟨h.sole, h.out, h.counter.imp_right fun hc => ⟨hc.1, hdelivers hc.1⟩, h.token.trans hawaited.symm,
    fun hl => hhalts.trans (h.listed hl), hfits, fun ev hev => h.fetched ev (hrest hev), fun hc => ?_⟩
  rw [hawaited]
  refine h.caught ?_
  rcases hc with hmem | hopen | hread
  · exact .inl (hrest hmem)
  · exact .inr (.inl hopen)
  · exact .inr (.inr (hreading hread))

/-- With the semaphore closed only an event to deliver, or the read to come, is in the worker's hands. -/
theorem not_caught (hclosed : s.sem.counter = 0) (hrest : s.pc.rest = []) (hread : s.pc ≠ .reading) :
    ¬ s.Caught haltFD := by
  rintro (hmem | hopen | hpc)
  · rw [hrest] at hmem
    cases hmem
  · rw [hclosed] at hopen
    cases hopen
  · exact hread hpc

/-- Outside `notifyAll` the semaphore is closed. -/
theorem Inv.closed (h : Inv haltFD s) (hpc : s.pc.delivers = false) : s.sem.counter = 0 := by
  refine h.counter.resolve_right fun hc => ?_
  rw [hpc] at hc
  cases hc.2

/-- `doPoll` fetches the eventfd's event only from a worker that has been resumed. -/
theorem Inv.doPoll (h : Inv haltFD s) (hpc : s.pc = .waiting pt) {evs : List Event}
    (hevs : ∀ ev ∈ evs, ev.fd = haltFD → ev = haltEvent haltFD ∧ 0 < s.eventfd) :
    Inv haltFD (s.goto (.notifying pt evs)) := by
  have hclosed := h.closed (by rw [hpc]; rfl)
  have hawaited : (s.goto (.notifying pt evs)).awaited = s.awaited := by
    rw [State.awaited, State.awaited, hpc]
    rfl
  refine ⟨h.sole, h.out, .inl hclosed, h.token.trans hawaited.symm, fun hl => ?_, nofun,
    fun ev hev hfd => (hevs ev hev hfd).1, fun hc => ?_⟩
  · have hlisted := h.listed hl
    rw [hpc] at hlisted
    exact hlisted
  · rw [hawaited]
    rcases hc with hmem | hopen | hread
    · have hpos := (hevs _ hmem rfl).2
      rw [h.token, State.awaited] at hpos
      rw [State.awaited]
      split at hpos
      · exact if_pos ‹_›
      · exact absurd hpos (lt_irrefl 0)
    · rw [State.goto, hclosed] at hopen
      cases hopen
    · cases hread

/-- `V` opens the semaphore: nobody sleeps on it. -/
theorem Inv.post_eq (h : Inv haltFD s) : s.post = { s with sem := s.sem.setCounter 1 } := by
  rcases h.sole.V with ⟨hsleep, -⟩ | ⟨-, hV⟩
  · exact absurd h.out hsleep.ne_out
  · rw [State.post, hV]

/-- The next event is taken from the batch. -/
theorem Inv.taken (h : Inv haltFD s) (hpc : s.pc = .notifying pt (ev :: rest)) :
    Inv haltFD (s.goto (.notifying pt rest)) :=
  h.goto (by rw [hpc]; rfl) (fun _ => rfl) nofun nofun (by rw [hpc]; exact List.subset_cons_self ev rest)

/-- An event is delivered. -/
theorem Inv.notify (h : Inv haltFD s) (hpc : s.pc = .notifying pt (ev :: rest)) :
    Inv haltFD (if notifyOne ev = some (haltFD, .input) then (s.goto (.notifying pt rest)).post
      else s.goto (.notifying pt rest)) := by
  have hgoto := h.taken hpc
  split
  · rename_i hnotify
    rw [hgoto.post_eq]
    have hev : ev = haltEvent haltFD :=
      h.fetched ev (by rw [hpc]; exact List.mem_cons_self) (notifyOne_fd hnotify)
    have hawaited : s.awaited = 1 := h.caught (.inl (by rw [hpc, ← hev]; exact List.mem_cons_self))
    refine ⟨hgoto.sole.setCounter (fun hs => hs.ne_out h.out) 1, h.out, .inr ⟨rfl, rfl⟩,
      hgoto.token, hgoto.listed,
      nofun, hgoto.fetched, fun _ => ?_⟩
    rw [State.awaited, hpc] at hawaited
    exact hawaited
  · exact hgoto

/-- `tryblock`: open for a worker that has been resumed only. -/
theorem Inv.tryblock (h : Inv haltFD s) (hpc : s.pc = .blocking pt) : Inv haltFD (tryblock s pt) := by
  have hpt := h.fits pt hpc
  have hhalts : s.pc.halts = true := by rw [hpc]; exact hpt
  rw [WorkerPoller.tryblock, tryP]
  rcases internalP_cases s.sem () (.wait false) with ⟨-, hb, -⟩ | ⟨hc, -, hP⟩ | ⟨hc, hP⟩
  · cases hb
  · rw [hP]
    have hclosed : s.sem.counter = 0 := h.counter.resolve_right fun h1 => by
      rw [h1.1] at hc
      exact absurd hc (lt_irrefl 1)
    set p : Pc := if pt = .suspend then .waiting .suspend else .halting with hp
    have hback : p.halts = true ∧ p.rest = [] ∧ p ≠ .reading ∧ ∀ pt, p ≠ .blocking pt := by
      rw [hp]
      split <;> exact ⟨rfl, rfl, nofun, nofun⟩
    obtain ⟨hhalts', hrest, hread, hblocking⟩ := hback
    refine h.goto (hhalts'.trans hhalts.symm) (fun hopen => ?_) (fun h' => absurd h' hread)
      (fun pt' h' => absurd h' (hblocking pt')) ?_
    · rw [hclosed] at hopen
      cases hopen
    · rw [hrest]
      exact List.nil_subset _
  · rw [hP]
    have hopen : s.sem.counter = 1 := (h.counter.resolve_left fun h0 => by
      rw [h0] at hc
      exact absurd hc (by decide)).1
    have hawaited : s.awaited = 1 := h.caught (.inr (.inl hopen))
    have hsame : (State.goto { s with sem := s.sem.setCounter (s.sem.counter - 1) } .reading).awaited
        = s.awaited := by
      rw [State.awaited, State.awaited, hhalts]
      rfl
    refine ⟨h.sole.setCounter (fun hs => hs.ne_out h.out) _, h.out, .inl ?_,
      h.token.trans hsame.symm, fun _ => rfl,
      nofun, nofun, fun _ => hsame.trans hawaited⟩
    show s.sem.counter - 1 = 0
    rw [hopen]
    rfl

/-- The worker goes to `halt`, on the list. -/
theorem Inv.block (h : Inv haltFD s) (hpc : s.pc = .running) :
    Inv haltFD (State.goto { s with enlisted := true } .halting) := by
  have hclosed := h.closed (by rw [hpc]; rfl)
  have htoken := h.token
  rw [State.awaited, hpc] at htoken
  exact ⟨h.sole, h.out, .inl hclosed, htoken, fun _ => rfl, nofun, nofun,
    fun hc => absurd hc (not_caught hclosed rfl nofun)⟩

/-- The worker leaves `halt`: a worker that reads has been resumed. -/
theorem Inv.read (h : Inv haltFD s) (hpc : s.pc = .reading) :
    s.eventfd = 1 ∧ Inv haltFD (State.goto { s with eventfd := 0 } .running) := by
  have hawaited : s.awaited = 1 := h.caught (.inr (.inr hpc))
  have hclosed := h.closed (by rw [hpc]; rfl)
  refine ⟨h.token.trans hawaited, h.sole, h.out, .inl hclosed, rfl, fun hl => ?_, nofun, nofun,
    fun hc => absurd hc (not_caught hclosed rfl nofun)⟩
  have hlisted : s.enlisted = true := hl
  rw [State.awaited, hlisted, Bool.not_true, Bool.and_false] at hawaited
  cases hawaited

/-- Somebody takes the worker off the list and wakes it. -/
theorem Inv.resume (h : Inv haltFD s) (hl : s.enlisted = true) :
    Inv haltFD { s with enlisted := false, eventfd := s.eventfd + 1 } := by
  have hhalts := h.listed hl
  have hnot : s.awaited = 0 := by
    rw [State.awaited, hl, Bool.not_true, Bool.and_false]
    rfl
  have hnow : State.awaited { s with enlisted := false, eventfd := s.eventfd + 1 } = 1 := by
    rw [State.awaited, hhalts]
    rfl
  refine ⟨h.sole, h.out, h.counter, ?_, nofun, h.fits, h.fetched, fun _ => hnow⟩
  rw [hnow, h.token, hnot]

/-- STEP: every step keeps the invariant. -/
theorem Inv.step (h : Inv haltFD s) (hs : step haltFD s a = some s') : Inv haltFD s' := by
  cases a with
  | poll | trySuspend | suspend =>
    obtain ⟨hpc, hs⟩ := Option.ite_none_right_eq_some.mp hs
    obtain rfl := Option.some.inj hs
    refine h.goto (by rw [hpc]; rfl) (fun hopen => ?_) nofun nofun nofun
    rw [h.closed (by rw [hpc]; rfl)] at hopen
    cases hopen
  | block =>
    obtain ⟨hpc, hs⟩ := Option.ite_none_right_eq_some.mp hs
    obtain rfl := Option.some.inj hs
    exact h.block hpc
  | doPoll evs =>
    rw [WorkerPoller.step] at hs
    split at hs
    · rename_i pt hpc
      obtain ⟨hreports, hs⟩ := Option.ite_none_right_eq_some.mp hs
      obtain rfl := Option.some.inj hs
      refine h.doPoll hpc fun ev hev hfd => ?_
      cases evs with
      | none => cases hev
      | some e => exact (hreports e rfl).2.2.2.1 ev hev hfd
    · cases hs
  | notify =>
    rw [WorkerPoller.step] at hs
    split at hs
    · rename_i pt ev rest hpc
      obtain rfl := Option.some.inj hs
      exact h.notify hpc
    · cases hs
  | notified =>
    rw [WorkerPoller.step] at hs
    split at hs
    · rename_i pt hpc
      obtain rfl := Option.some.inj hs
      cases pt with
      | poll =>
        -- nothing has been delivered: the worker has not halted
        have hclosed : s.sem.counter = 0 := h.counter.resolve_right fun hc => by
          have hawaited := h.caught (.inr (.inl hc.1))
          rw [State.awaited, hpc] at hawaited
          cases hawaited
        have htoken := h.token
        rw [State.awaited, hpc] at htoken
        refine ⟨h.sole, h.out, .inl hclosed, htoken, fun hl => ?_, nofun, nofun,
          fun hc => absurd hc (not_caught hclosed rfl nofun)⟩
        have hlisted := h.listed hl
        rw [hpc] at hlisted
        cases hlisted
      | suspend | trying =>
        refine h.goto (by rw [hpc]; rfl) (fun _ => rfl) nofun (fun pt hp => ?_) nofun
        cases hp
        rfl
    · cases hs
  | tryblock =>
    rw [WorkerPoller.step] at hs
    split at hs
    · rename_i pt hpc
      obtain rfl := Option.some.inj hs
      exact h.tryblock hpc
    · cases hs
  | read =>
    obtain ⟨⟨hpc, -⟩, hs⟩ := Option.ite_none_right_eq_some.mp hs
    obtain rfl := Option.some.inj hs
    exact (h.read hpc).2
  | resume =>
    obtain ⟨hl, hs⟩ := Option.ite_none_right_eq_some.mp hs
    obtain rfl := Option.some.inj hs
    exact h.resume hl

theorem inv_of_exec {as : List Action} (he : exec (system haltFD) .init as = some t) : Inv haltFD t :=
  inv_exec (fun _ _ _ hi hs => hi.step hs) init_inv he

/-! ### Resumptions -/

/-- Another worker resumes this one. -/
def resumes (_ : State) (a : Action) : Bool := decide (a = .resume)

/-- `halt` returns. -/
def leaves (_ : State) (a : Action) : Bool := decide (a = .read)

theorem tryblock_eventfd (s : State) (pt : PollType) : (tryblock s pt).eventfd = s.eventfd := by
  rw [tryblock]
  split <;> rfl

/-- STEP: a worker that is resumed is awaited until it leaves. -/
theorem awaited_step (h : Inv haltFD s) (hs : step haltFD s a = some s') :
    (if resumes s a then 1 else 0) + s.awaited = (if leaves s a then 1 else 0) + s'.awaited := by
  -- the eventfd is what is awaited, and only the two steps in question touch it
  rw [← h.token, ← (h.step hs).token]
  cases a with
  | poll | block | trySuspend | suspend =>
    obtain ⟨-, hs⟩ := Option.ite_none_right_eq_some.mp hs
    obtain rfl := Option.some.inj hs
    rfl
  | doPoll evs =>
    rw [step] at hs
    split at hs
    · obtain ⟨-, hs⟩ := Option.ite_none_right_eq_some.mp hs
      obtain rfl := Option.some.inj hs
      rfl
    · cases hs
  | notify =>
    rw [step] at hs
    split at hs
    · rename_i pt ev rest hpc
      obtain rfl := Option.some.inj hs
      by_cases hnotify : notifyOne ev = some (haltFD, .input)
      · rw [if_pos hnotify]
        rfl
      · rw [if_neg hnotify]
        rfl
    · cases hs
  | notified =>
    rw [step] at hs
    split at hs
    · obtain rfl := Option.some.inj hs
      rfl
    · cases hs
  | tryblock =>
    rw [step] at hs
    split at hs
    · rename_i pt hpc
      obtain rfl := Option.some.inj hs
      rw [tryblock_eventfd]
      rfl
    · cases hs
  | read =>
    obtain ⟨⟨-, hone⟩, hs⟩ := Option.ite_none_right_eq_some.mp hs
    obtain rfl := Option.some.inj hs
    exact (Nat.zero_add _).trans hone
  | resume =>
    obtain ⟨-, hs⟩ := Option.ite_none_right_eq_some.mp hs
    obtain rfl := Option.some.inj hs
    exact (Nat.add_comm _ _).trans (Nat.zero_add _).symm

/-- Out of `halt`, or before a look at the epoll set. -/
def Pc.looks : Pc → Bool
  | .running | .halting | .waiting _ => true
  | _ => false

/-- A worker that has the event in hand is on its way from one to the other. -/
theorem Inv.not_looks (h : Inv haltFD s) (hc : s.Caught haltFD) : s.pc.looks = false := by
  by_contra hlooks
  have hquiet : s.pc.delivers = false ∧ s.pc.rest = [] ∧ s.pc ≠ .reading := by
    cases hpc : s.pc with
    | running | halting | waiting => exact ⟨rfl, rfl, nofun⟩
    | notifying | blocking | reading => rw [hpc] at hlooks; exact absurd rfl hlooks
  exact not_caught (h.closed hquiet.1) hquiet.2.1 hquiet.2.2 hc

/-- STEP: the event stays in hand until the worker leaves `halt`. -/
theorem caught_step (h : Inv haltFD s) (hc : s.Caught haltFD) (hs : step haltFD s a = some s')
    (ha : leaves s a = false) : s'.Caught haltFD := by
  have hlooks := h.not_looks hc
  cases a with
  | poll | block | trySuspend | suspend =>
    obtain ⟨hpc, -⟩ := Option.ite_none_right_eq_some.mp hs
    rw [hpc] at hlooks
    cases hlooks
  | doPoll evs =>
    rw [step] at hs
    split at hs
    · rename_i pt hpc
      rw [hpc] at hlooks
      cases hlooks
    · cases hs
  | notify =>
    rw [step] at hs
    split at hs
    · rename_i pt ev rest hpc
      obtain rfl := Option.some.inj hs
      split
      · rw [(h.taken hpc).post_eq]
        exact .inr (.inl rfl)
      · rename_i hother
        rcases hc with hmem | hopen | hread
        · rw [hpc] at hmem
          rcases List.mem_cons.mp hmem with rfl | hrest
          · exact absurd notifyOne_haltEvent hother
          · exact .inl hrest
        · exact .inr (.inl hopen)
        · rw [hread] at hpc
          cases hpc
    · cases hs
  | notified =>
    rw [step] at hs
    split at hs
    · rename_i pt hpc
      obtain rfl := Option.some.inj hs
      rcases hc with hmem | hopen | hread
      · rw [hpc] at hmem
        cases hmem
      · exact .inr (.inl hopen)
      · rw [hread] at hpc
        cases hpc
    · cases hs
  | tryblock =>
    rw [step] at hs
    split at hs
    · rename_i pt hpc
      obtain rfl := Option.some.inj hs
      have hopen : s.sem.counter = 1 := by
        rcases hc with hmem | hopen | hread
        · rw [hpc] at hmem
          cases hmem
        · exact hopen
        · rw [hread] at hpc
          cases hpc
      rw [tryblock, tryP]
      rcases internalP_cases s.sem () (.wait false) with ⟨hlt, -⟩ | ⟨hlt, -⟩ | ⟨-, hP⟩
      · omega
      · omega
      · rw [hP]
        exact .inr (.inr rfl)
    · cases hs
  | read => cases ha
  | resume =>
    obtain ⟨-, hs⟩ := Option.ite_none_right_eq_some.mp hs
    obtain rfl := Option.some.inj hs
    exact hc

/-- The worker leaves `halt` before it does anything else. -/
theorem leaves_of_caught {as : List Action} (h : Inv haltFD s) (hc : s.Caught haltFD)
    (he : exec (system haltFD) s as = some t) (hlooks : t.pc.looks = true) :
    0 < times (system haltFD) leaves s as := by
  induction as generalizing s with
  | nil =>
    obtain rfl := Option.some.inj he
    rw [h.not_looks hc] at hlooks
    cases hlooks
  | cons a as ih =>
    obtain ⟨s', hs, he⟩ := exec_cons_some he
    rw [times_cons hs]
    cases ha : leaves s a with
    | true => exact Nat.add_pos_left Nat.one_pos _
    | false => exact Nat.add_pos_right _ (ih (h.step hs) (caught_step h hc hs ha) he)

/-- RUN: in any interleaving a worker leaves `halt` once for each time it is resumed, and what it reads is
    that one time; a worker that has been resumed finds its eventfd ready, and a look that reports less
    than `MaxPoll` descriptors is its last one in `halt`. -/
theorem worker_poller {as : List Action} (he : exec (system haltFD) .init as = some t) :
    times (system haltFD) resumes .init as = times (system haltFD) leaves .init as + t.awaited ∧
    (t.pc = .reading → (step haltFD t .read).isSome = true) ∧
    (t.awaited = 1 → 0 < t.eventfd) ∧
    ∀ evs s' bs u, t.awaited = 1 → evs.length < PollerFibre.MaxPoll →
      step haltFD t (.doPoll (some evs)) = some s' → exec (system haltFD) s' bs = some u → u.pc.looks = true →
      0 < times (system haltFD) leaves s' bs := by
  have hinv := inv_of_exec he
  refine ⟨?_, fun hpc => ?_, fun hawaited => ?_, fun evs s' bs u hawaited hlen hs hbs hlooks => ?_⟩
  · exact times_balance (μ := State.awaited) (fun _ _ _ hi hs => Inv.step hi hs)
      (fun _ _ _ hi hs => awaited_step hi hs) init_inv he
  · rw [step, if_pos ⟨hpc, (hinv.read hpc).1⟩]
    rfl
  · rw [hinv.token, hawaited]
    exact Nat.one_pos
  · have hpos : 0 < t.eventfd := by
      rw [hinv.token, hawaited]
      exact Nat.one_pos
    refine leaves_of_caught (hinv.step hs) ?_ hbs hlooks
    rw [step] at hs
    split at hs
    · obtain ⟨hreports, hs⟩ := Option.ite_none_right_eq_some.mp hs
      obtain rfl := Option.some.inj hs
      exact .inl ((hreports evs rfl).2.2.2.2 hpos hlen)
    · cases hs

/-- The worker is resumed while it delivers another descriptor's event; an interrupted look later it is
    still in `halt`. -/
theorem worker_poller_late : ∃ (as : List Action) (t : State), exec (system 3) .init as = some t ∧
    (t.pc = .waiting .suspend ∧ t.awaited = 1) ∧
    times (system 3) resumes .init as = times (system 3) leaves .init as + t.awaited ∧
    (t.pc = .reading → (step 3 t .read).isSome = true) ∧
    (t.awaited = 1 → 0 < t.eventfd) ∧
    ∀ evs s' bs u, t.awaited = 1 → evs.length < PollerFibre.MaxPoll →
      step 3 t (.doPoll (some evs)) = some s' → exec (system 3) s' bs = some u → u.pc.looks = true →
      0 < times (system 3) leaves s' bs := by
  have he : ((exec (system 3) .init [.block, .suspend, .doPoll (some [⟨7, EPOLLIN⟩]), .notify,
      .resume, .notified, .tryblock, .doPoll none, .notified, .tryblock]).map fun t =>
        decide (t.pc = .waiting .suspend ∧ t.awaited = 1)) = some true := by decide
  obtain ⟨t, ht, hp⟩ := Option.map_eq_some_iff.mp he
  exact ⟨_, t, ht, of_decide_eq_true hp, worker_poller ht⟩

end Libfibre.EventScope.WorkerPoller
