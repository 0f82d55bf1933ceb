import Libfibre.SpinCondMutex.Core
import Mathlib.Data.List.Nodup
import Libfibre.Schemes.Threads

/-! `SpinCondMutex` over `ConditionalNemesisQueue` (`ConditionalNemesisQueue.h`): fibres push themselves
    without the lock and look at `value` afterwards; `unblock` tries the head of the queue only. The
    push, the look at `value`, each `raceResume` and each pop or remove under the lock are separate
    steps; the race of a fibre is kept apart from its place.

        entering ──▶ pushing ──▶ checking ──▶ suspending ──▶ asleep ──▶ (relock)
                                    │              │ timer     │ timer
                        value ≠ 2   ▼              │           ▼
                                 racing            ├───────▶ readied
                          won ╱        ╲ lost      ▼           │
                      removing        suspended  expired ◀─────┘
                         ▼                ▼        ▼
                      (relock)        (relock)  (return false)

    A head that cancels itself because the value has changed goes on to `tryLock2`, so a failing
    `unblock` does no harm. A head whose timer has won does not: whoever sleeps behind it is forgotten
    (`strands`).

    The queue links its fibres through `FredReadyLink`, and so do the ready queues. A fibre whose timer
    has won is put on a ready queue with its node still in this one, unless it has not been switched away
    from: that goes well as long as it is the last here and nobody comes behind it before it runs, its link
    being null then. Otherwise one queue follows the link that the other has written (`crosses`). -/

namespace Libfibre.SpinCondMutex.ConditionalNemesisQueue
open Transition

/-- The places inside `block`. -/
inductive Blocking where
  | entering
  | pushing
  | checking
  | suspending       -- in `suspend`, and not parked
  | asleep           -- parked
  | racing
  | removing
  | suspended
  | readied          -- the timer has won: in a ready queue
  | expired          -- the timer has won: running
  deriving DecidableEq

/-- The places inside `unblock`. All but the first are under the lock. -/
inductive Unblocking (F : Type) where
  | popping
  | racing (elem : F)
  | removing (elem : F)
  deriving DecidableEq

/-- The places of a fibre in the mutex and in its queue. -/
abbrev Place (F : Type) := Pc Blocking (Unblocking F)

/-- The winner of a fibre's resume race. -/
inductive Winner where
  | nobody
  | queue
  | timer
  deriving DecidableEq

/-- The mutex, the queue, and the race and resumption of each fibre. -/
structure State (F : Type) where
  core : Core F Blocking (Unblocking F)
  lock : Option F
  queue : List F
  resumeInfo : F → Winner
  /-- `resume` has been called for the fibre and it has not run since. -/
  resumed : F → Bool

/-- A call begins or goes on, a timer expires, or a resumed fibre runs. -/
inductive Action (F : Type) where
  | acquire (f : F) (mode : Mode)
  | tryAcquire (f : F)
  | release (f : F)
  | next (f : F) (ahead : Bool)     -- `ahead`: of the deadline, or of the switch in `suspend`
  | timer (f : F)
  | resumption (f : F)

variable {F : Type} [DecidableEq F]

/-- Fibre `f` goes to another place. -/
def State.goto (s : State F) (f : F) (p : Place F) : State F := { s with core := s.core.goto f p }

/-- The race of `f` is decided, or opened again. -/
def State.win (s : State F) (f : F) (w : Winner) : State F :=
  { s with resumeInfo := Function.update s.resumeInfo f w }

/-- The next step of `f` inside `block`. -/
def blockNext (s : State F) (f : F) (mode : Mode) (ahead : Bool) : Blocking → Option (State F)
  | .entering =>
    if mode = .plain ∨ ahead then some ((s.win f .nobody).goto f (.block mode .pushing))
    else some (s.goto f .out)
  | .pushing => some (State.goto { s with queue := s.queue ++ [f] } f (.block mode .checking))
  | .checking => some (s.goto f (.block mode (if s.core.value = 2 then .suspending else .racing)))
  | .suspending =>
    if s.resumeInfo f = .timer then
      -- resumed early: seen before the switch, or after it by the next fibre
      some (s.goto f (.block mode (if ahead then .expired else .readied)))
    else some (s.goto f (.block mode .asleep))
  | .racing =>
    if s.resumeInfo f = .nobody then some ((s.win f .queue).goto f (.block mode .removing))
    else some (s.goto f (.block mode .suspended))
  | .removing =>
    if s.lock = none then some (State.goto { s with queue := s.queue.erase f } f (.relock mode))
    else none
  | .readied => some (s.goto f (.block mode .expired))
  | .expired =>
    if s.lock = none then some (State.goto { s with queue := s.queue.erase f } f .out) else none
  | .asleep | .suspended => none

/-- The next step of `f` inside `unblock`; then `release` returns. -/
def unblockNext (s : State F) (f : F) : Unblocking F → Option (State F)
  | .popping =>
    if s.lock = none then
      match s.queue.head? with
      | some elem => some (State.goto { s with lock := some f } f (.unblock (.racing elem)))
      | none => some (s.goto f .out)
    else none
  | .racing elem =>
    if s.resumeInfo elem = .nobody then
      some ((s.win elem .queue).goto f (.unblock (.removing elem)))
    else some (State.goto { s with lock := none } f .out)
  | .removing elem =>
    some (State.goto { s with lock := none
                              queue := s.queue.erase elem
                              resumed := Function.update s.resumed elem true } f .out)

/-- One step. -/
def step (P : Spins) (s : State F) : Action F → Option (State F)
  | .acquire f mode => (SpinCondMutex.acquire P s.core f mode).map fun core => { s with core := core }
  | .tryAcquire f => (SpinCondMutex.tryAcquire s.core f).map fun core => { s with core := core }
  | .release f => (SpinCondMutex.release s.core f).map fun core => { s with core := core }
  | .next f ahead =>
    match s.core.pc f with
    | .block mode b => blockNext s f mode ahead b
    | .unblock u => unblockNext s f u
    | _ =>
      (SpinCondMutex.next P (fun _ => .entering) .popping s.core f).map fun core =>
        { s with core := core }
  | .timer f =>
    match s.core.pc f with
    | .block .timed .suspending =>
      if s.resumeInfo f = .nobody then some (s.win f .timer) else none
    | .block .timed .asleep =>
      if s.resumeInfo f = .nobody then some ((s.win f .timer).goto f (.block .timed .readied)) else none
    | _ => none
  | .resumption f =>
    match s.core.pc f with
    | .block mode .suspending | .block mode .asleep | .block mode .suspended =>
      if s.resumed f then
        some (State.goto { s with resumed := Function.update s.resumed f false } f (.relock mode))
      else none
    | _ => none

/-- The constructed mutex. -/
def start : State F :=
  { core := SpinCondMutex.start, lock := none, queue := [], resumeInfo := fun _ => .nobody
    resumed := fun _ => false }

/-- The constructed mutex, with any spin parameters. -/
def system (F : Type) [DecidableEq F] (P : Spins) : System (State F) (Action F) where
  init s := s = start
  step := step P

/-- In `suspend`. -/
def rests : Blocking → Bool
  | .suspending | .asleep | .suspended => true
  | _ => false

/-- Has seen that `value` is 2, and sleeps or is going to. -/
def settled : Place F → Bool
  | .block _ .suspending | .block _ .asleep => true
  | _ => false

/-- `f` sleeps in the queue, or is going to, with an open race. -/
def State.settles (s : State F) (f : F) : Bool :=
  settled (s.core.pc f) && s.resumeInfo f == .nobody

/-- Parked in the queue by `block`. -/
def asleep : Place F → Bool
  | .block _ .asleep => true
  | _ => false

/-- `f` sleeps in the queue with an open race. -/
def State.sleeps (s : State F) (f : F) : Bool :=
  asleep (s.core.pc f) && s.resumeInfo f == .nobody

/-- In a ready queue with its node in the queue. -/
def readied : Place F → Bool
  | .block _ .readied => true
  | _ => false

/-- An `unblock` is about to fail on a head whose timer has won, with a sleeper behind it. -/
def strands (s : State F) : Action F → Bool
  | .next f _ =>
    match s.core.pc f with
    | .unblock (.racing elem) => s.resumeInfo elem == .timer && s.queue.any s.settles
    | _ => false
  | _ => false

/-- A fibre whose timer has won is about to be put on a ready queue with others behind it in the queue, or
    to be followed in the queue while it is in a ready queue. -/
def crosses (s : State F) : Action F → Bool
  | .timer f => asleep (s.core.pc f) && s.queue.getLast? != some f
  | .next f ahead =>
    match s.core.pc f with
    | .block _ .pushing => s.queue.getLast?.any fun g => readied (s.core.pc g)
    | .block _ .suspending => !ahead && s.resumeInfo f == .timer && s.queue.getLast? != some f
    | _ => false
  | _ => false

/-- The steps that leave a sleeper behind, and those that use a link twice. -/
def goesWrong (s : State F) (a : Action F) : Bool := strands s a || crosses s a

/-! ### What a step does -/

@[simp] theorem goto_core (s : State F) (f : F) (p : Place F) :
    (s.goto f p).core = s.core.goto f p := rfl
@[simp] theorem goto_lock (s : State F) (f : F) (p : Place F) : (s.goto f p).lock = s.lock := rfl
@[simp] theorem goto_queue (s : State F) (f : F) (p : Place F) : (s.goto f p).queue = s.queue := rfl
@[simp] theorem goto_resumeInfo (s : State F) (f : F) (p : Place F) :
    (s.goto f p).resumeInfo = s.resumeInfo := rfl
@[simp] theorem goto_resumed (s : State F) (f : F) (p : Place F) :
    (s.goto f p).resumed = s.resumed := rfl
@[simp] theorem win_core (s : State F) (f : F) (w : Winner) : (s.win f w).core = s.core := rfl
@[simp] theorem win_lock (s : State F) (f : F) (w : Winner) : (s.win f w).lock = s.lock := rfl
@[simp] theorem win_queue (s : State F) (f : F) (w : Winner) : (s.win f w).queue = s.queue := rfl
@[simp] theorem win_resumeInfo (s : State F) (f : F) (w : Winner) :
    (s.win f w).resumeInfo = Function.update s.resumeInfo f w := rfl
@[simp] theorem win_resumed (s : State F) (f : F) (w : Winner) : (s.win f w).resumed = s.resumed := rfl

/-- Everything an action can do. -/
inductive Did (s : State F) : Action F → State F → Prop
  | outside {a : Action F} {f : F} {core : Core F Blocking (Unblocking F)} :
      Outside (fun _ => .entering) .popping s.core f core → SpinCondMutex.Did s.core f core →
      Did s a { s with core := core }
  | late {a : Action F} {f : F} {mode : Mode} : s.core.pc f = .block mode .entering →
      Did s a (s.goto f .out)
  | prepared {a : Action F} {f : F} {mode : Mode} : s.core.pc f = .block mode .entering →
      Did s a ((s.win f .nobody).goto f (.block mode .pushing))
  | pushed {f : F} {mode : Mode} {ahead : Bool} : s.core.pc f = .block mode .pushing →
      Did s (.next f ahead) (State.goto { s with queue := s.queue ++ [f] } f (.block mode .checking))
  | sawTwo {a : Action F} {f : F} {mode : Mode} : s.core.pc f = .block mode .checking →
      s.core.value = 2 → Did s a (s.goto f (.block mode .suspending))
  | parked {a : Action F} {f : F} {mode : Mode} : s.core.pc f = .block mode .suspending →
      s.resumeInfo f ≠ .timer → Did s a (s.goto f (.block mode .asleep))
  | skipped {a : Action F} {f : F} {mode : Mode} : s.core.pc f = .block mode .suspending →
      s.resumeInfo f = .timer → Did s a (s.goto f (.block mode .expired))
  | switched {f : F} {mode : Mode} : s.core.pc f = .block mode .suspending →
      s.resumeInfo f = .timer → Did s (.next f false) (s.goto f (.block mode .readied))
  | dequeued {a : Action F} {f : F} {mode : Mode} : s.core.pc f = .block mode .readied →
      Did s a (s.goto f (.block mode .expired))
  | sawOther {a : Action F} {f : F} {mode : Mode} : s.core.pc f = .block mode .checking →
      Did s a (s.goto f (.block mode .racing))
  | wonBack {a : Action F} {f : F} {mode : Mode} : s.core.pc f = .block mode .racing →
      s.resumeInfo f = .nobody → Did s a ((s.win f .queue).goto f (.block mode .removing))
  | lostRace {a : Action F} {f : F} {mode : Mode} : s.core.pc f = .block mode .racing →
      s.resumeInfo f ≠ .nobody → Did s a (s.goto f (.block mode .suspended))
  | removed {a : Action F} {f : F} {mode : Mode} : s.core.pc f = .block mode .removing →
      s.lock = none →
      Did s a (State.goto { s with queue := s.queue.erase f } f (.relock mode))
  | cancelled {a : Action F} {f : F} {mode : Mode} : s.core.pc f = .block mode .expired →
      s.lock = none → Did s a (State.goto { s with queue := s.queue.erase f } f .out)
  | popped {a : Action F} {f elem : F} : s.core.pc f = .unblock .popping → s.lock = none →
      elem ∈ s.queue →
      Did s a (State.goto { s with lock := some f } f (.unblock (.racing elem)))
  | empty {a : Action F} {f : F} : s.core.pc f = .unblock .popping → s.lock = none →
      s.queue = [] → Did s a (s.goto f .out)
  | won {a : Action F} {f elem : F} : s.core.pc f = .unblock (.racing elem) →
      s.resumeInfo elem = .nobody →
      Did s a ((s.win elem .queue).goto f (.unblock (.removing elem)))
  | failed {f elem : F} {ahead : Bool} : s.core.pc f = .unblock (.racing elem) →
      s.resumeInfo elem ≠ .nobody →
      Did s (.next f ahead) (State.goto { s with lock := none } f .out)
  | handed {a : Action F} {f elem : F} : s.core.pc f = .unblock (.removing elem) →
      Did s a (State.goto { s with lock := none
                                   queue := s.queue.erase elem
                                   resumed := Function.update s.resumed elem true } f .out)
  | timedEarly {a : Action F} {f : F} : s.core.pc f = .block .timed .suspending →
      s.resumeInfo f = .nobody → Did s a (s.win f .timer)
  | timedOut {f : F} : s.core.pc f = .block .timed .asleep →
      s.resumeInfo f = .nobody →
      Did s (.timer f) ((s.win f .timer).goto f (.block .timed .readied))
  | resumed {a : Action F} {f : F} {mode : Mode} {b : Blocking} : s.core.pc f = .block mode b →
      rests b = true → s.resumed f = true →
      Did s a (State.goto { s with resumed := Function.update s.resumed f false } f (.relock mode))

theorem block_did {s s' : State F} {f : F} {mode : Mode} {ahead : Bool} {b : Blocking}
    (hpc : s.core.pc f = .block mode b) (h : blockNext s f mode ahead b = some s') :
    Did s (.next f ahead) s' := by
  cases b with
  | entering =>
    rw [blockNext] at h
    split_ifs at h <;> rw [← Option.some.inj h]
    · exact .prepared hpc
    · exact .late hpc
  | pushing => rw [← Option.some.inj h]; exact .pushed hpc
  | checking =>
    rw [blockNext] at h
    split_ifs at h with h2 <;> rw [← Option.some.inj h]
    · exact .sawTwo hpc h2
    · exact .sawOther hpc
  | suspending =>
    rw [blockNext] at h
    by_cases htimer : s.resumeInfo f = .timer
    · rw [if_pos htimer] at h
      cases ahead <;> rw [← Option.some.inj h]
      · exact .switched hpc htimer
      · exact .skipped hpc htimer
    · rw [if_neg htimer] at h
      rw [← Option.some.inj h]
      exact .parked hpc htimer
  | readied => rw [← Option.some.inj h]; exact .dequeued hpc
  | racing =>
    rw [blockNext] at h
    split_ifs at h with hopen <;> rw [← Option.some.inj h]
    · exact .wonBack hpc hopen
    · exact .lostRace hpc hopen
  | removing =>
    simp only [blockNext, Option.ite_none_right_eq_some, Option.some.injEq] at h
    obtain ⟨hlock, rfl⟩ := h
    exact .removed hpc hlock
  | expired =>
    simp only [blockNext, Option.ite_none_right_eq_some, Option.some.injEq] at h
    obtain ⟨hlock, rfl⟩ := h
    exact .cancelled hpc hlock
  | asleep => cases h
  | suspended => cases h

theorem unblock_did {s s' : State F} {f : F} {ahead : Bool} {u : Unblocking F}
    (hpc : s.core.pc f = .unblock u) (h : unblockNext s f u = some s') :
    Did s (.next f ahead) s' := by
  cases u with
  | popping =>
    simp only [unblockNext, Option.ite_none_right_eq_some] at h
    obtain ⟨hlock, h⟩ := h
    cases hq : s.queue.head? with
    | none =>
      rw [hq] at h
      rw [← Option.some.inj h]
      exact .empty hpc hlock (List.head?_eq_none_iff.mp hq)
    | some elem =>
      rw [hq] at h
      rw [← Option.some.inj h]
      exact .popped hpc hlock (List.mem_of_mem_head? hq)
  | racing elem =>
    rw [unblockNext] at h
    split_ifs at h with hopen <;> rw [← Option.some.inj h]
    · exact .won hpc hopen
    · exact .failed hpc hopen
  | removing elem => rw [← Option.some.inj h]; exact .handed hpc

/-- INVERSION: every step is one of the listed ones. -/
theorem step_did {P : Spins} {s s' : State F} {a : Action F} (h : step P s a = some s') :
    Did s a s' := by
  cases a with
  | acquire f mode =>
    obtain ⟨core, hcore, rfl⟩ := Option.map_eq_some_iff.mp h
    refine .outside (acquire_outside hcore) ?_
    obtain ⟨hpc, rfl⟩ := acquire_did hcore
    exact .moved (by rw [hpc]; rfl) rfl
  | tryAcquire f =>
    obtain ⟨core, hcore, rfl⟩ := Option.map_eq_some_iff.mp h
    refine .outside (tryAcquire_outside hcore) ?_
    obtain ⟨hpc, rfl⟩ := tryAcquire_did hcore
    exact .moved (by rw [hpc]; rfl) rfl
  | release f =>
    obtain ⟨core, hcore, rfl⟩ := Option.map_eq_some_iff.mp h
    refine .outside (release_outside hcore) ?_
    obtain ⟨hpc, rfl⟩ := release_did hcore
    exact .disowned hpc
  | next f ahead =>
    rw [step] at h
    split at h
    · exact block_did ‹_› h
    · exact unblock_did ‹_› h
    · obtain ⟨core, hcore, rfl⟩ := Option.map_eq_some_iff.mp h
      exact .outside (next_outside hcore) (next_did hcore)
  | timer f =>
    rw [step] at h
    split at h
    · split_ifs at h with hopen
      rw [← Option.some.inj h]
      exact .timedEarly ‹_› hopen
    · split_ifs at h with hopen
      rw [← Option.some.inj h]
      exact .timedOut ‹_› hopen
    · cases h
  | resumption f =>
    rw [step] at h
    split at h
    · split_ifs at h with hres
      rw [← Option.some.inj h]
      exact .resumed ‹_› rfl hres
    · split_ifs at h with hres
      rw [← Option.some.inj h]
      exact .resumed ‹_› rfl hres
    · split_ifs at h with hres
      rw [← Option.some.inj h]
      exact .resumed ‹_› rfl hres
    · cases h

/-! ### Exclusion -/

/-- STEP: the queue moves fibres only between places in which they do not hold the mutex. -/
theorem exclusive_step {P : Spins} {s s' : State F} {a : Action F} (hi : Exclusive s.core)
    (h : step P s a = some s') : Exclusive s'.core := by
  have hmove : ∀ {f : F} {p : Place F}, (s.core.pc f).critical = false → p.critical = false →
      Exclusive (s.core.goto f p) := fun hf hp => (SpinCondMutex.Did.moved hf hp).exclusive hi
  cases step_did h with
  | outside _ hcore => exact hcore.exclusive hi
  | late hpc => exact hmove (by rw [hpc]; rfl) rfl
  | prepared hpc => exact hmove (by rw [hpc]; rfl) rfl
  | pushed hpc => exact hmove (by rw [hpc]; rfl) rfl
  | sawTwo hpc => exact hmove (by rw [hpc]; rfl) rfl
  | sawOther hpc => exact hmove (by rw [hpc]; rfl) rfl
  | wonBack hpc => exact hmove (by rw [hpc]; rfl) rfl
  | lostRace hpc => exact hmove (by rw [hpc]; rfl) rfl
  | removed hpc => exact hmove (by rw [hpc]; rfl) rfl
  | cancelled hpc => exact hmove (by rw [hpc]; rfl) rfl
  | popped hpc => exact hmove (by rw [hpc]; rfl) rfl
  | empty hpc => exact hmove (by rw [hpc]; rfl) rfl
  | won hpc => exact hmove (by rw [hpc]; rfl) rfl
  | failed hpc => exact hmove (by rw [hpc]; rfl) rfl
  | handed hpc => exact hmove (by rw [hpc]; rfl) rfl
  | timedOut hpc => exact hmove (by rw [hpc]; rfl) rfl
  | parked hpc => exact hmove (by rw [hpc]; rfl) rfl
  | skipped hpc => exact hmove (by rw [hpc]; rfl) rfl
  | switched hpc => exact hmove (by rw [hpc]; rfl) rfl
  | dequeued hpc => exact hmove (by rw [hpc]; rfl) rfl
  | timedEarly => exact hi
  | resumed hpc => exact hmove (by rw [hpc]; rfl) rfl

/-! ### Where a fibre is, its race and the queue -/

/-- What a place tells about the fibre's race, about a pending resumption and about its node. The
    race is open or lost to an `unblock` that resumes the fibre when it has taken its node out. -/
def Fits (p : Place F) (w : Winner) (resumed : Bool) (node : Prop) : Prop :=
  match p with
  | .block _ .pushing => w = .nobody ∧ resumed = false ∧ ¬ node
  | .block _ .suspending =>
    (w = .timer ∧ resumed = false ∧ node) ∨
      (w = .nobody ∧ resumed = false ∧ node) ∨ (w = .queue ∧ (resumed = false ↔ node))
  | .block _ .checking | .block _ .asleep | .block _ .racing =>
    (w = .nobody ∧ resumed = false ∧ node) ∨ (w = .queue ∧ (resumed = false ↔ node))
  | .block _ .suspended => w = .queue ∧ (resumed = false ↔ node)
  | .block _ .removing => w = .queue ∧ resumed = false ∧ node
  | .block _ .readied | .block _ .expired => w = .timer ∧ resumed = false ∧ node
  | _ => resumed = false ∧ ¬ node

/-- On its way through `block` without having cancelled. -/
def waiting : Place F → Bool
  | .block _ .checking | .block _ .suspending | .block _ .asleep | .block _ .racing
  | .block _ .suspended => true
  | _ => false

/-- Taken by an `unblock`, and yet to notice. -/
def State.woken (s : State F) (f : F) : Bool := waiting (s.core.pc f) && s.resumeInfo f == .queue

/-- Holds the queue lock. -/
def locks : Place F → Bool
  | .unblock (.racing _) | .unblock (.removing _) => true
  | _ => false

/-- INVARIANT: places, races, nodes and the lock agree. -/
structure Queues (s : State F) : Prop where
  nodup : s.queue.Nodup
  fits : ∀ f, Fits (s.core.pc f) (s.resumeInfo f) (s.resumed f) (f ∈ s.queue)
  lock : ∀ f, s.lock = some f ↔ locks (s.core.pc f) = true
  racing : ∀ f elem, s.core.pc f = .unblock (.racing elem) → elem ∈ s.queue
  removing : ∀ f elem, s.core.pc f = .unblock (.removing elem) → elem ∈ s.queue ∧
    s.woken elem = true

omit [DecidableEq F] in
theorem queues_start : Queues (start : State F) := by
  constructor <;> simp [start, SpinCondMutex.start, Fits, locks]

/-- What a step of `f` at places outside the lock has to show. -/
theorem Queues.moves {s s' : State F} (hq : Queues s) {f : F} {p : Place F}
    (hpc : s'.core.pc = Function.update s.core.pc f p) (hnd : s'.queue.Nodup)
    (hothers : ∀ g, g ≠ f → s'.resumeInfo g = s.resumeInfo g ∧ s'.resumed g = s.resumed g ∧
      (g ∈ s'.queue ↔ g ∈ s.queue))
    (hfits : Fits p (s'.resumeInfo f) (s'.resumed f) (f ∈ s'.queue))
    (hlock : s'.lock = s.lock) (hp : locks p = false) (hf : locks (s.core.pc f) = false)
    (hnode : s.lock ≠ none → f ∈ s.queue → f ∈ s'.queue)
    (hwoken : f ∈ s.queue → s.woken f = true → waiting p = true ∧ s'.resumeInfo f = .queue) :
    Queues s' := by
  have hlocked : ∀ {g}, locks (s.core.pc g) = true → s.lock ≠ none := fun hg => by
    rw [(hq.lock _).mpr hg]; simp
  have hmem : ∀ {elem : F}, s.lock ≠ none → elem ∈ s.queue → elem ∈ s'.queue := by
    intro elem hl he
    rcases eq_or_ne elem f with rfl | hne
    · exact hnode hl he
    · exact (hothers elem hne).2.2.mpr he
  have hpc_ne : ∀ {g u}, s'.core.pc g = .unblock u → locks (.unblock u) = true →
      s.core.pc g = .unblock u := by
    intro g u hg hu
    rw [hpc] at hg
    rcases eq_or_ne g f with rfl | hne
    · rw [Function.update_self] at hg
      rw [hg, hu] at hp; cases hp
    · rwa [Function.update_of_ne hne] at hg
  refine ⟨hnd, fun g => ?_, fun g => ?_, fun g elem hg => ?_, fun g elem hg => ?_⟩
  · rcases eq_or_ne g f with rfl | hne
    · rw [hpc, Function.update_self]; exact hfits
    · obtain ⟨h1, h2, h3⟩ := hothers g hne
      rw [hpc, Function.update_of_ne hne, h1, h2, h3]
      exact hq.fits g
  · rw [hlock, hq.lock, hpc, Threads.same_at (hp.trans hf.symm)]
  · have hg' := hpc_ne hg rfl
    exact hmem (hlocked (by rw [hg']; rfl)) (hq.racing g elem hg')
  · have hg' := hpc_ne hg rfl
    have hl := hlocked (g := g) (by rw [hg']; rfl)
    obtain ⟨he, hw⟩ := hq.removing g elem hg'
    refine ⟨hmem hl he, ?_⟩
    rcases eq_or_ne elem f with rfl | hne
    · obtain ⟨h1, h2⟩ := hwoken he hw
      rw [State.woken, hpc, Function.update_self, h1, h2]; rfl
    · rw [State.woken, hpc, Function.update_of_ne hne, (hothers elem hne).1]; exact hw

omit [DecidableEq F] in
/-- A fibre under the lock is the only one there. -/
theorem Queues.only {s : State F} (hq : Queues s) {f g : F} (hf : locks (s.core.pc f) = true)
    (hg : g ≠ f) : locks (s.core.pc g) = false := by
  by_contra h
  rw [Bool.not_eq_false, ← hq.lock] at h
  rw [← hq.lock, h, Option.some.injEq] at hf
  exact hg hf

omit [DecidableEq F] in
/-- A fibre inside `unblock` has no node. -/
theorem Queues.no_node {s : State F} (hq : Queues s) {f : F} {u : Unblocking F}
    (hpc : s.core.pc f = .unblock u) : s.resumed f = false ∧ f ∉ s.queue := by
  have hfits := hq.fits f
  rw [hpc] at hfits
  exact hfits

omit [DecidableEq F] in
/-- A queued fibre with an open race waits. -/
theorem Queues.waiting_of_open {s : State F} (hq : Queues s) {f : F} (hnode : f ∈ s.queue)
    (hopen : s.resumeInfo f = .nobody) : waiting (s.core.pc f) = true ∧ s.resumed f = false := by
  have hfits := hq.fits f
  cases hp : s.core.pc f with
  | block mode b => rw [hp] at hfits; cases b <;> simp_all [Fits, waiting]
  | _ => rw [hp] at hfits; exact absurd hnode hfits.2

/-- A step of `f` into the lock or further inside it, that takes no node out. -/
theorem Queues.locks {s s' : State F} (hq : Queues s) {f : F} {u : Unblocking F}
    (hpc : s'.core.pc = Function.update s.core.pc f (.unblock u)) (hqueue : s'.queue = s.queue)
    (hfits : ∀ g, g ≠ f → Fits (s.core.pc g) (s'.resumeInfo g) (s'.resumed g) (g ∈ s.queue))
    (hf : s'.resumed f = false ∧ f ∉ s.queue) (hlock : s'.lock = some f)
    (hu : ConditionalNemesisQueue.locks (.unblock u) = true)
    (hothers : ∀ g, g ≠ f → ConditionalNemesisQueue.locks (s.core.pc g) = false)
    (hracing : ∀ elem, u = .racing elem → elem ∈ s.queue)
    (hremoving : ∀ elem, u = .removing elem → elem ∈ s.queue ∧ s'.woken elem = true) :
    Queues s' := by
  refine ⟨hqueue ▸ hq.nodup, fun g => ?_, fun g => ?_, fun g elem hg => ?_, fun g elem hg => ?_⟩ <;>
    rcases eq_or_ne g f with rfl | hne
  · rw [hpc, Function.update_self, hqueue]; exact hf
  · rw [hpc, Function.update_of_ne hne, hqueue]; exact hfits g hne
  · rw [hpc, Function.update_self, hu, hlock]; simp
  · rw [hpc, Function.update_of_ne hne, hothers g hne, hlock]; simp [Ne.symm hne]
  · rw [hpc, Function.update_self] at hg
    rw [hqueue]; exact hracing elem (Pc.unblock.inj hg)
  · rw [hpc, Function.update_of_ne hne] at hg
    have := hothers g hne
    rw [hg] at this; cases this
  · rw [hpc, Function.update_self] at hg
    rw [hqueue]; exact hremoving elem (Pc.unblock.inj hg)
  · rw [hpc, Function.update_of_ne hne] at hg
    have := hothers g hne
    rw [hg] at this; cases this

/-- A step of `f` out of the lock. -/
theorem Queues.unlocks {s s' : State F} (hq : Queues s) {f : F}
    (hf : ConditionalNemesisQueue.locks (s.core.pc f) = true)
    (hpc : s'.core.pc = Function.update s.core.pc f .out) (hnd : s'.queue.Nodup)
    (hfits : ∀ g, g ≠ f → Fits (s.core.pc g) (s'.resumeInfo g) (s'.resumed g) (g ∈ s'.queue))
    (hout : s'.resumed f = false ∧ f ∉ s'.queue) (hlock : s'.lock = none) : Queues s' := by
  have hnone : ∀ g, ConditionalNemesisQueue.locks (s'.core.pc g) = false := fun g => by
    rcases eq_or_ne g f with rfl | hne
    · rw [hpc, Function.update_self]; rfl
    · rw [hpc, Function.update_of_ne hne]; exact hq.only hf hne
  refine ⟨hnd, fun g => ?_, fun g => ?_, fun g elem hg => ?_, fun g elem hg => ?_⟩
  · rcases eq_or_ne g f with rfl | hne
    · rw [hpc, Function.update_self]; exact hout
    · rw [hpc, Function.update_of_ne hne]; exact hfits g hne
  · rw [hlock, hnone g]; simp
  · have := hnone g
    rw [hg] at this; cases this
  · have := hnone g
    rw [hg] at this; cases this

omit [DecidableEq F] in
theorem not_woken {s : State F} {f : F} (h : waiting (s.core.pc f) = false) :
    s.woken f ≠ true := by
  rw [State.woken, h]; simp

omit [DecidableEq F] in
theorem not_woken_nobody {s : State F} {f : F} (h : s.resumeInfo f = .nobody) :
    s.woken f ≠ true := by
  rw [State.woken, h]; simp

omit [DecidableEq F] in
theorem not_woken_timer {s : State F} {f : F} (h : s.resumeInfo f = .timer) :
    s.woken f ≠ true := by
  rw [State.woken, h]; simp

omit [DecidableEq F] in
/-- A fibre that its timer has resumed early still has its node. -/
theorem Queues.timed_out {s : State F} (hq : Queues s) {f : F} {mode : Mode}
    (hpc : s.core.pc f = .block mode .suspending) (htimer : s.resumeInfo f = .timer) :
    s.resumeInfo f = .timer ∧ s.resumed f = false ∧ f ∈ s.queue := by
  have hfits := hq.fits f
  rw [hpc] at hfits
  rcases hfits with h | ⟨hinfo, -⟩ | ⟨hinfo, -⟩
  · exact h
  · rw [htimer] at hinfo; cases hinfo
  · rw [htimer] at hinfo; cases hinfo

omit [DecidableEq F] in
/-- A step outside the queue starts and ends at places of no account to the queue. -/
theorem outside_from {c core : Core F Blocking (Unblocking F)} {f : F}
    (h : Outside (fun _ => Blocking.entering) Unblocking.popping c f core) :
    (∀ w r q, Fits (c.pc f) w r q ↔ r = false ∧ ¬ q) ∧ locks (c.pc f) = false ∧
      waiting (c.pc f) = false := by
  cases hp : c.pc f with
  | block mode b => exact absurd hp (h.notBlocking mode b)
  | unblock u => exact absurd hp (h.notUnblocking u)
  | _ => exact ⟨fun _ _ _ => Iff.rfl, rfl, rfl⟩

omit [DecidableEq F] in
theorem outside_to {c core : Core F Blocking (Unblocking F)} {f : F}
    (h : Outside (fun _ => Blocking.entering) Unblocking.popping c f core) :
    (∀ w r q, Fits (core.pc f) w r q ↔ r = false ∧ ¬ q) ∧ locks (core.pc f) = false ∧
      settled (core.pc f) = false ∧ readied (core.pc f) = false := by
  cases hp : core.pc f with
  | block mode b => rw [h.enters mode b hp]; exact ⟨fun _ _ _ => Iff.rfl, rfl, rfl, rfl⟩
  | unblock u => rw [h.leaves u hp]; exact ⟨fun _ _ _ => Iff.rfl, rfl, rfl, rfl⟩
  | _ => exact ⟨fun _ _ _ => Iff.rfl, rfl, rfl, rfl⟩

theorem outside_pc {c core : Core F Blocking (Unblocking F)} {f : F}
    (h : Outside (fun _ => Blocking.entering) Unblocking.popping c f core) :
    core.pc = Function.update c.pc f (core.pc f) := by
  funext g
  rcases eq_or_ne g f with rfl | hg
  · rw [Function.update_self]
  · rw [Function.update_of_ne hg]; exact h.others g hg

theorem queues_step {P : Spins} {s s' : State F} {a : Action F} (hq : Queues s)
    (h : step P s a = some s') : Queues s' := by
  have hsame : ∀ {f : F}, ∀ g, g ≠ f → s.resumeInfo g = s.resumeInfo g ∧ s.resumed g = s.resumed g ∧
      (g ∈ s.queue ↔ g ∈ s.queue) := fun _ _ => ⟨rfl, rfl, Iff.rfl⟩
  have hwin : ∀ {f : F} {w : Winner}, ∀ g, g ≠ f →
      Function.update s.resumeInfo f w g = s.resumeInfo g ∧ s.resumed g = s.resumed g ∧
      (g ∈ s.queue ↔ g ∈ s.queue) := fun g hg => ⟨Function.update_of_ne hg .., rfl, Iff.rfl⟩
  have herase : ∀ {f : F}, ∀ g, g ≠ f → s.resumeInfo g = s.resumeInfo g ∧
      s.resumed g = s.resumed g ∧ (g ∈ s.queue.erase f ↔ g ∈ s.queue) :=
    fun g hg => ⟨rfl, rfl, by simp [hq.nodup.mem_erase_iff, hg]⟩
  cases step_did h with
  | @outside _ f core hout =>
    obtain ⟨hfrom, hlocks, hwaiting⟩ := outside_from hout
    obtain ⟨hto, hlocks', -⟩ := outside_to hout
    exact hq.moves (outside_pc hout) hq.nodup hsame ((hto _ _ _).mpr ((hfrom _ _ _).mp (hq.fits f)))
      rfl hlocks' hlocks (fun _ => id) fun _ h => absurd h (not_woken hwaiting)
  | @late _ f mode hpc =>
    have hfits := hq.fits f
    rw [hpc] at hfits
    exact hq.moves rfl hq.nodup hsame hfits rfl rfl (by rw [hpc]; rfl) (fun _ => id)
      fun _ h => absurd h (not_woken (by rw [hpc]; rfl))
  | @prepared _ f mode hpc =>
    have hfits := hq.fits f
    rw [hpc] at hfits
    exact hq.moves rfl hq.nodup hwin ⟨Function.update_self .., hfits⟩ rfl rfl (by rw [hpc]; rfl)
      (fun _ => id) fun _ h => absurd h (not_woken (by rw [hpc]; rfl))
  | @pushed f mode ahead hpc =>
    have hfits := hq.fits f
    rw [hpc] at hfits
    obtain ⟨hinfo, hres, hnew⟩ := hfits
    refine hq.moves rfl ?_ (fun g hg => ⟨rfl, rfl, by simp [hg]⟩)
      (Or.inl ⟨hinfo, hres, List.mem_append_right _ (List.mem_singleton_self f)⟩) rfl rfl
      (by rw [hpc]; rfl) (fun _ h => List.mem_append_left _ h)
      fun _ h => absurd h (not_woken (by rw [hpc]; rfl))
    rw [goto_queue, ← List.concat_eq_append]
    exact hq.nodup.concat hnew
  | @sawTwo _ f mode hpc =>
    have hfits := hq.fits f
    rw [hpc] at hfits
    refine hq.moves rfl hq.nodup hsame (Or.inr hfits) rfl rfl (by rw [hpc]; rfl) (fun _ => id)
      fun _ h => ?_
    rw [State.woken, hpc, Bool.and_eq_true, beq_iff_eq] at h
    exact ⟨rfl, h.2⟩
  | @sawOther _ f mode hpc =>
    have hfits := hq.fits f
    rw [hpc] at hfits
    refine hq.moves rfl hq.nodup hsame hfits rfl rfl (by rw [hpc]; rfl) (fun _ => id) fun _ h => ?_
    rw [State.woken, hpc, Bool.and_eq_true, beq_iff_eq] at h
    exact ⟨rfl, h.2⟩
  | @parked _ f mode hpc htimer =>
    have hfits := hq.fits f
    rw [hpc] at hfits
    refine hq.moves rfl hq.nodup hsame (hfits.resolve_left fun h => htimer h.1) rfl rfl
      (by rw [hpc]; rfl) (fun _ => id) fun _ h => ?_
    rw [State.woken, hpc, Bool.and_eq_true, beq_iff_eq] at h
    exact ⟨rfl, h.2⟩
  | @skipped _ f mode hpc htimer =>
    exact hq.moves rfl hq.nodup hsame (hq.timed_out hpc htimer) rfl rfl (by rw [hpc]; rfl)
      (fun _ => id) fun _ h => absurd h (not_woken_timer htimer)
  | @switched f mode hpc htimer =>
    exact hq.moves rfl hq.nodup hsame (hq.timed_out hpc htimer) rfl rfl (by rw [hpc]; rfl)
      (fun _ => id) fun _ h => absurd h (not_woken_timer htimer)
  | @dequeued _ f mode hpc =>
    have hfits := hq.fits f
    rw [hpc] at hfits
    exact hq.moves rfl hq.nodup hsame hfits rfl rfl (by rw [hpc]; rfl) (fun _ => id)
      fun _ h => absurd h (not_woken (by rw [hpc]; rfl))
  | @wonBack _ f mode hpc hopen =>
    have hfits := hq.fits f
    rw [hpc] at hfits
    rcases hfits with ⟨-, hres, hnode⟩ | ⟨hinfo, -⟩
    · exact hq.moves rfl hq.nodup hwin ⟨Function.update_self .., hres, hnode⟩ rfl rfl
        (by rw [hpc]; rfl) (fun _ => id) fun _ h => absurd h (not_woken_nobody hopen)
    · rw [hopen] at hinfo; cases hinfo
  | @lostRace _ f mode hpc hlost =>
    have hfits := hq.fits f
    rw [hpc] at hfits
    rcases hfits with ⟨hinfo, -⟩ | hfits
    · exact absurd hinfo hlost
    · exact hq.moves rfl hq.nodup hsame hfits rfl rfl (by rw [hpc]; rfl) (fun _ => id)
        fun _ _ => ⟨rfl, hfits.1⟩
  | @removed _ f mode hpc hlock =>
    have hfits := hq.fits f
    rw [hpc] at hfits
    exact hq.moves rfl (hq.nodup.erase f) herase
      ⟨hfits.2.1, by simp [hq.nodup.mem_erase_iff]⟩ rfl rfl (by rw [hpc]; rfl)
      (fun h => absurd hlock h) fun _ h => absurd h (not_woken (by rw [hpc]; rfl))
  | @cancelled _ f mode hpc hlock =>
    have hfits := hq.fits f
    rw [hpc] at hfits
    exact hq.moves rfl (hq.nodup.erase f) herase
      ⟨hfits.2.1, by simp [hq.nodup.mem_erase_iff]⟩ rfl rfl (by rw [hpc]; rfl)
      (fun h => absurd hlock h) fun _ h => absurd h (not_woken (by rw [hpc]; rfl))
  | @popped _ f elem hpc hlock helem =>
    have hothers : ∀ g, g ≠ f → ConditionalNemesisQueue.locks (s.core.pc g) = false := fun g _ => by
      by_contra h
      rw [Bool.not_eq_false, ← hq.lock, hlock] at h
      cases h
    refine hq.locks rfl rfl (fun g _ => hq.fits g) (hq.no_node hpc) rfl rfl hothers ?_ ?_
    · rintro _ ⟨⟩; exact helem
    · rintro _ ⟨⟩
  | @empty _ f hpc =>
    have hfits := hq.fits f
    rw [hpc] at hfits
    exact hq.moves rfl hq.nodup hsame hfits rfl rfl (by rw [hpc]; rfl) (fun _ => id)
      fun _ h => absurd h (not_woken (by rw [hpc]; rfl))
  | @won _ f elem hpc hopen =>
    have hlocks : ConditionalNemesisQueue.locks (s.core.pc f) = true := by rw [hpc]; rfl
    have helem : elem ∈ s.queue := hq.racing f elem hpc
    obtain ⟨hwaits, hres⟩ := hq.waiting_of_open helem hopen
    have hne : elem ≠ f := by rintro rfl; exact (hq.no_node hpc).2 helem
    refine hq.locks rfl rfl (fun g _ => ?_) (hq.no_node hpc) ((hq.lock f).mpr hlocks) rfl
      (fun g hg => hq.only hlocks hg) ?_ ?_
    · rcases eq_or_ne g elem with rfl | hge
      · simp only [goto_resumeInfo, win_resumeInfo, Function.update_self, goto_resumed, win_resumed]
        cases hp : s.core.pc g with
        | block mode b => rw [hp] at hwaits; cases b <;> simp_all [Fits, waiting]
        | _ => rw [hp] at hwaits; cases hwaits
      · simp only [goto_resumeInfo, win_resumeInfo, Function.update_of_ne hge]
        exact hq.fits g
    · rintro _ ⟨⟩
    · rintro _ ⟨⟩
      exact ⟨helem, by simp [State.woken, hne, hwaits]⟩
  | @failed f elem ahead hpc hlost =>
    exact hq.unlocks (by rw [hpc]; rfl) rfl hq.nodup (fun g _ => hq.fits g) (hq.no_node hpc) rfl
  | @handed _ f elem hpc =>
    obtain ⟨helem, hwoken⟩ := hq.removing f elem hpc
    have hne : f ≠ elem := by rintro rfl; exact (hq.no_node hpc).2 helem
    refine hq.unlocks (by rw [hpc]; rfl) rfl (hq.nodup.erase elem) (fun g _ => ?_) ?_ rfl
    · rcases eq_or_ne g elem with rfl | hge
      · rw [State.woken, Bool.and_eq_true, beq_iff_eq] at hwoken
        simp only [goto_resumeInfo, goto_resumed, goto_queue, Function.update_self,
          hq.nodup.mem_erase_iff, hwoken.2]
        cases hp : s.core.pc g with
        | block mode b => rw [hp] at hwoken; cases b <;> simp_all [Fits, waiting]
        | _ => rw [hp] at hwoken; cases hwoken.1
      · simp only [goto_resumeInfo, goto_resumed, goto_queue, Function.update_of_ne hge]
        have hiff : g ∈ s.queue.erase elem ↔ g ∈ s.queue := by simp [hq.nodup.mem_erase_iff, hge]
        rw [hiff]; exact hq.fits g
    · obtain ⟨hres, hnode⟩ := hq.no_node hpc
      exact ⟨by simp [Function.update_of_ne hne, hres], fun h => hnode (List.mem_of_mem_erase h)⟩
  | @timedEarly _ f hpc hopen =>
    have hfits := hq.fits f
    rw [hpc] at hfits
    rcases hfits with ⟨hinfo, -⟩ | ⟨-, hres, hnode⟩ | ⟨hinfo, -⟩
    · rw [hopen] at hinfo; cases hinfo
    · refine hq.moves (p := .block .timed .suspending) ?_ hq.nodup hwin
        (Or.inl ⟨Function.update_self .., hres, hnode⟩) rfl rfl (by rw [hpc]; rfl) (fun _ => id)
        fun _ h => absurd h (not_woken_nobody hopen)
      rw [win_core, ← hpc, Function.update_eq_self]
    · rw [hopen] at hinfo; cases hinfo
  | @timedOut f hpc hopen =>
    have hfits := hq.fits f
    rw [hpc] at hfits
    rcases hfits with ⟨-, hres, hnode⟩ | ⟨hinfo, -⟩
    · exact hq.moves rfl hq.nodup hwin ⟨Function.update_self .., hres, hnode⟩ rfl rfl
        (by rw [hpc]; rfl) (fun _ => id) fun _ h => absurd h (not_woken_nobody hopen)
    · rw [hopen] at hinfo; cases hinfo
  | @resumed _ f mode b hpc hrests hres =>
    have hfits := hq.fits f
    have hnode : f ∉ s.queue := by
      rw [hpc] at hfits
      cases b <;> simp_all [Fits, rests]
    exact hq.moves rfl hq.nodup (fun g hg => ⟨rfl, Function.update_of_ne hg .., Iff.rfl⟩)
      ⟨Function.update_self .., hnode⟩ rfl rfl (by rw [hpc]; rfl) (fun _ => id)
      fun h => absurd h hnode

/-! ### No sleeper is forgotten -/

/-- In `release` before the end of `unblock`, or about to `tryLock2`. -/
def busy : Place F → Bool
  | .unblock _ | .relock _ | .block _ .removing => true
  | _ => false

/-- `g` will look at the queue, or at `value`, on its way. -/
def State.watches (s : State F) (g : F) : Bool := busy (s.core.pc g) || s.woken g

/-- INVARIANT: behind a sleeper there is the value 2, a releaser inside `unblock`, or a fibre on its way
    to `tryLock2`. -/
def Watched (s : State F) : Prop :=
  ∀ f, s.settles f = true → s.core.value = 2 ∨ ∃ g, s.watches g = true

omit [DecidableEq F] in
/-- A sleeper has its node in the queue. -/
theorem Queues.node_of_settles {s : State F} (hq : Queues s) {f : F} (h : s.settles f = true) :
    f ∈ s.queue := by
  rw [State.settles, Bool.and_eq_true, beq_iff_eq] at h
  have hfits := hq.fits f
  cases hp : s.core.pc f with
  | block mode b => rw [hp] at h hfits; cases b <;> simp_all [Fits, settled]
  | _ => rw [hp] at h; cases h.1

omit [DecidableEq F] in
/-- A queued fibre that has won its race for the queue, or for which an `unblock` has, watches. -/
theorem Queues.watches_of_queue {s : State F} (hq : Queues s) {f : F} (hnode : f ∈ s.queue)
    (hinfo : s.resumeInfo f = .queue) : s.watches f = true := by
  have hfits := hq.fits f
  rw [State.watches, State.woken, hinfo]
  cases hp : s.core.pc f with
  | block mode b => rw [hp] at hfits; cases b <;> simp_all [Fits, busy, waiting]
  | _ => rw [hp] at hfits; exact absurd hnode hfits.2

/-- A step of `f` that makes no sleeper of it and leaves the value and its watch, if it keeps one. -/
theorem Watched.stays {s s' : State F} (hi : Watched s) {f : F} {p : Place F}
    (hpc : s'.core.pc = Function.update s.core.pc f p) (hvalue : s'.core.value = s.core.value)
    (hinfo : ∀ g, g ≠ f → s'.resumeInfo g = s.resumeInfo g)
    (hp : s'.settles f = true → s.settles f = true)
    (hwatch : s.watches f = true → s'.watches f = true) : Watched s' := by
  intro g hg
  have hslept : s.settles g = true := by
    rcases eq_or_ne g f with rfl | hgf
    · exact hp hg
    · rwa [State.settles, hpc, Function.update_of_ne hgf, hinfo g hgf] at hg
  rw [hvalue]
  rcases hi g hslept with h2 | ⟨x, hx⟩
  · exact Or.inl h2
  · refine Or.inr ⟨x, ?_⟩
    rcases eq_or_ne x f with rfl | hxf
    · exact hwatch hx
    · rwa [State.watches, State.woken, hpc, Function.update_of_ne hxf, hinfo x hxf]

omit [DecidableEq F] in
theorem not_watches {s : State F} {f : F} (hbusy : busy (s.core.pc f) = false)
    (hwaiting : waiting (s.core.pc f) = false) : s.watches f ≠ true := by
  rw [State.watches, State.woken, hbusy, hwaiting]; simp

omit [DecidableEq F] in
theorem not_watches_timer {s : State F} {f : F} (hbusy : busy (s.core.pc f) = false)
    (htimer : s.resumeInfo f = .timer) : s.watches f ≠ true := by
  rw [State.watches, State.woken, hbusy, htimer]; simp

/-- A fibre at a place where it does not sleep. -/
theorem not_settles {s' : State F} {f : F} {p : Place F} {pc : F → Place F} {P : Prop}
    (hpc : s'.core.pc = Function.update pc f p) (hp : settled p = false) (h : s'.settles f = true) :
    P := by
  rw [State.settles, hpc, Function.update_self, hp] at h
  cases h

/-- STEP: only an `unblock` that fails on a timed-out head with a sleeper behind it takes a watch
    away. -/
theorem watched_step {P : Spins} {s s' : State F} {a : Action F} (hq : Queues s) (hi : Watched s)
    (hok : strands s a = false) (h : step P s a = some s') : Watched s' := by
  have hwin : ∀ {f : F} {w : Winner}, ∀ g, g ≠ f →
      Function.update s.resumeInfo f w g = s.resumeInfo g := fun g hg => Function.update_of_ne hg ..
  cases step_did h with
  | @outside _ f core hout =>
    intro g hg
    have hgf : g ≠ f := by
      rintro rfl
      rw [State.settles, (outside_to hout).2.2.1] at hg; cases hg
    have hslept : s.settles g = true := by rwa [State.settles, hout.others g hgf] at hg
    rcases hi g hslept with h2 | ⟨x, hx⟩
    · rcases hout.two h2 with h2' | hleave
      · exact Or.inl h2'
      · exact Or.inr ⟨f, by simp [State.watches, hleave, busy]⟩
    · rcases eq_or_ne x f with rfl | hxf
      · -- `f` itself was on watch, and has just written 2 again
        have hwaiting := (outside_from hout).2.2
        cases hp : s.core.pc x with
        | relock mode => exact Or.inl (hout.relocked mode hp)
        | block mode b => exact absurd hp (hout.notBlocking mode b)
        | unblock u => exact absurd hp (hout.notUnblocking u)
        | _ => exact absurd hx (not_watches (by rw [hp]; rfl) hwaiting)
      · exact Or.inr ⟨x, by rwa [State.watches, State.woken, hout.others x hxf]⟩
  | late hpc =>
    exact hi.stays rfl rfl (fun _ _ => rfl) (not_settles rfl rfl) fun h =>
      absurd h (not_watches (by rw [hpc]; rfl) (by rw [hpc]; rfl))
  | prepared hpc =>
    exact hi.stays rfl rfl hwin (not_settles rfl rfl) fun h =>
      absurd h (not_watches (by rw [hpc]; rfl) (by rw [hpc]; rfl))
  | pushed hpc =>
    exact hi.stays rfl rfl (fun _ _ => rfl) (not_settles rfl rfl) fun h =>
      absurd h (not_watches (by rw [hpc]; rfl) (by rw [hpc]; rfl))
  | sawTwo _ h2 => exact fun _ _ => Or.inl h2
  | sawOther hpc =>
    exact hi.stays rfl rfl (fun _ _ => rfl) (not_settles rfl rfl) fun h => by
      simpa [State.watches, State.woken, hpc, busy, waiting] using h
  | parked hpc =>
    refine hi.stays rfl rfl (fun _ _ => rfl) (fun h => ?_) fun h => ?_
    · simpa [State.settles, hpc, settled] using h
    · simpa [State.watches, State.woken, hpc, busy, waiting] using h
  | skipped hpc htimer | switched hpc htimer =>
    exact hi.stays rfl rfl (fun _ _ => rfl) (not_settles rfl rfl) fun h =>
      absurd h (not_watches_timer (by rw [hpc]; rfl) htimer)
  | dequeued hpc =>
    exact hi.stays rfl rfl (fun _ _ => rfl) (not_settles rfl rfl) fun h =>
      absurd h (not_watches (by rw [hpc]; rfl) (by rw [hpc]; rfl))
  | wonBack =>
    exact hi.stays rfl rfl hwin (not_settles rfl rfl) fun _ => by simp [State.watches, busy]
  | lostRace hpc =>
    exact hi.stays rfl rfl (fun _ _ => rfl) (not_settles rfl rfl) fun h => by
      simpa [State.watches, State.woken, hpc, busy, waiting] using h
  | removed =>
    exact hi.stays rfl rfl (fun _ _ => rfl) (not_settles rfl rfl) fun _ => by
      simp [State.watches, busy]
  | cancelled hpc =>
    exact hi.stays rfl rfl (fun _ _ => rfl) (not_settles rfl rfl) fun h =>
      absurd h (not_watches (by rw [hpc]; rfl) (by rw [hpc]; rfl))
  | popped =>
    exact hi.stays rfl rfl (fun _ _ => rfl) (not_settles rfl rfl) fun _ => by
      simp [State.watches, busy]
  | @empty _ f hpc _ hempty =>
    intro g hg
    have hgf : g ≠ f := by
      rintro rfl
      have hmoved : (s.goto g .out).core.pc = Function.update s.core.pc g .out := rfl
      exact not_settles hmoved rfl hg
    rw [State.settles, goto_core, SpinCondMutex.goto_pc, Function.update_of_ne hgf] at hg
    have hnode := hq.node_of_settles (f := g) hg
    rw [hempty] at hnode; cases hnode
  | @won _ f elem => exact fun _ _ => Or.inr ⟨f, by simp [State.watches, busy]⟩
  | @failed f elem ahead hpc hlost =>
    intro g hg
    have hgf : g ≠ f := by
      rintro rfl
      simp [State.settles, settled] at hg
    rw [State.settles, goto_core, SpinCondMutex.goto_pc, Function.update_of_ne hgf] at hg
    have helem : elem ∈ s.queue := hq.racing f elem hpc
    cases hinfo : s.resumeInfo elem with
    | nobody => exact absurd hinfo hlost
    | queue =>
      have hne : elem ≠ f := by rintro rfl; exact (hq.no_node hpc).2 helem
      have hw := hq.watches_of_queue helem hinfo
      refine Or.inr ⟨elem, ?_⟩
      rw [State.watches, State.woken] at hw ⊢
      rw [goto_core, SpinCondMutex.goto_pc, Function.update_of_ne hne]
      exact hw
    | timer =>
      have hstrands : s.queue.any s.settles = false := by simpa [strands, hpc, hinfo] using hok
      rw [List.any_eq_false] at hstrands
      exact absurd hg (hstrands g (hq.node_of_settles (f := g) hg))
  | @handed _ f elem hpc =>
    obtain ⟨helem, hwoken⟩ := hq.removing f elem hpc
    have hne : elem ≠ f := by rintro rfl; exact (hq.no_node hpc).2 helem
    refine fun _ _ => Or.inr ⟨elem, ?_⟩
    rw [State.woken] at hwoken
    rw [State.watches, State.woken, goto_core, SpinCondMutex.goto_pc, Function.update_of_ne hne,
      goto_resumeInfo, hwoken, Bool.or_true]
  | @timedEarly _ f hpc hopen =>
    refine hi.stays (f := f) (p := s.core.pc f) (Function.update_eq_self ..).symm rfl hwin
      (fun h => ?_) fun h => ?_
    · simp [State.settles] at h
    · simp [State.watches, State.woken, hpc, hopen, busy] at h
  | @timedOut f hpc hopen =>
    exact hi.stays rfl rfl hwin (not_settles rfl rfl) fun h => by
      simp [State.watches, State.woken, hpc, hopen, busy] at h
  | resumed =>
    exact hi.stays rfl rfl (fun _ _ => rfl) (not_settles rfl rfl) fun _ => by
      simp [State.watches, busy]

/-! ### The ready queues -/

/-- INVARIANT: a fibre that is in a ready queue and in this one is the last here, so that its link is free. -/
def LinksApart (s : State F) : Prop :=
  ∀ f, readied (s.core.pc f) = true → s.queue.getLast? = some f

theorem getLast?_erase {l : List F} {f g : F} (h : l.getLast? = some g) (hne : g ≠ f) :
    (l.erase f).getLast? = some g := by
  obtain ⟨k, rfl⟩ := List.getLast?_eq_some_iff.mp h
  rw [List.erase_append]
  split_ifs
  · exact List.getLast?_concat
  · rw [List.erase_of_not_mem (by simpa using hne.symm)]
    exact List.getLast?_concat

/-- A step of `f` that leaves the last of the queue, unless that is `f`. -/
theorem LinksApart.move {s s' : State F} (hi : LinksApart s) {f : F} {p : Place F}
    (hpc : s'.core.pc = Function.update s.core.pc f p) (hp : readied p = false)
    (hlast : ∀ g, g ≠ f → s.queue.getLast? = some g → readied (s.core.pc g) = true →
      s'.queue.getLast? = some g) : LinksApart s' := by
  intro g hg
  rcases eq_or_ne g f with rfl | hne
  · rw [hpc, Function.update_self, hp] at hg
    cases hg
  · rw [hpc, Function.update_of_ne hne] at hg
    exact hlast g hne (hi g hg) hg

theorem links_step {P : Spins} {s s' : State F} {a : Action F} (hq : Queues s) (hi : LinksApart s)
    (hok : crosses s a = false) (h : step P s a = some s') : LinksApart s' := by
  have hsame : ∀ {f : F}, ∀ g, g ≠ f → s.queue.getLast? = some g → readied (s.core.pc g) = true →
      s.queue.getLast? = some g := fun _ _ h _ => h
  have herase : ∀ {f : F}, ∀ g, g ≠ f → s.queue.getLast? = some g → readied (s.core.pc g) = true →
      (s.queue.erase f).getLast? = some g := fun _ hne h _ => getLast?_erase h hne
  have hreadied : ∀ {f : F} {mode : Mode}, s.queue.getLast? = some f →
      LinksApart (s.goto f (.block mode .readied)) := fun {f mode} hlast g hg => by
    rcases eq_or_ne g f with rfl | hne
    · exact hlast
    · rw [goto_core, SpinCondMutex.goto_pc, Function.update_of_ne hne] at hg
      exact hi g hg
  cases step_did h with
  | outside hout => exact hi.move (outside_pc hout) (outside_to hout).2.2.2 hsame
  | @pushed f mode ahead hpc =>
    refine hi.move rfl rfl fun g _ hlast hg => ?_
    rw [crosses, hpc] at hok
    simp [hlast, hg] at hok
  | removed | cancelled => exact hi.move rfl rfl herase
  | @handed _ f elem hpc =>
    obtain ⟨-, hwoken⟩ := hq.removing f elem hpc
    refine hi.move rfl rfl fun g _ hlast hg => getLast?_erase hlast ?_
    rintro rfl
    cases hp : s.core.pc g with
    | block mode b =>
      rw [State.woken, hp] at hwoken
      rw [hp] at hg
      cases b <;> simp_all [readied, waiting]
    | _ => rw [hp] at hg; cases hg
  | @switched f mode hpc htimer =>
    refine hreadied ?_
    simpa [crosses, hpc, htimer] using hok
  | @timedOut f hpc hopen =>
    have hlinks : LinksApart (s.goto f (.block .timed .readied)) := by
      refine hreadied ?_
      simpa [crosses, hpc, asleep] using hok
    exact hlinks
  | timedEarly => exact hi
  | late | prepared | sawTwo | sawOther | parked | skipped | dequeued | wonBack | lostRace | popped
  | empty | won | failed | resumed => exact hi.move rfl rfl hsame

/-! ### Every run -/

/-- RUN: while no `unblock` fails on a timed-out head with a sleeper behind it and no link is used twice,
    every sleeper is watched, and the queue is what its links say. -/
theorem watched_run {P : Spins} {as : List (Action F)} {s : State F}
    (h : Run (system F P) (Avoids goesWrong) as s) : Watched s ∧ LinksApart s := by
  refine (h.inv (I := fun s => Queues s ∧ Watched s ∧ LinksApart s) ?_ ?_).2
  · rintro _ rfl
    exact ⟨queues_start, (fun _ h => by cases h), fun _ h => by cases h⟩
  · rintro s a s' ⟨hq, hw, hl⟩ hok hs
    obtain ⟨hstrands, hcrosses⟩ := Bool.or_eq_false_iff.mp hok
    exact ⟨queues_step hq hs, watched_step hq hw hstrands hs, links_step hq hl hcrosses hs⟩

/-- At most one fibre is between a successful acquire and its release, in every interleaving. -/
theorem exclusive_reach {P : Spins} {s : State F} (h : Reach (system F P) s) : Exclusive s.core := by
  refine h.inv (I := fun s => Exclusive s.core) ?_ fun s a s' hi hs => exclusive_step hi hs
  rintro _ rfl
  exact exclusive_start

/-- Outside `acquire` and `release`, or asleep in the queue with an open race. -/
def State.quiet (s : State F) (f : F) : Bool :=
  s.core.pc f == .out || s.core.pc f == .holder || s.sleeps f

/-- Nobody sleeps on a free and quiet mutex. -/
def NoLostWakeUp (s : State F) : Prop :=
  s.core.value = 0 → (∀ f, s.quiet f = true) → ∀ f, s.sleeps f = false

/-- CORRECT: in the runs in which no `unblock` fails on a timed-out head with a sleeper behind it, and no
    link is used twice, no wake-up is lost. -/
theorem sleepers_watched_of_run {P : Spins} {as : List (Action F)} {s : State F}
    (h : Run (system F P) (Avoids goesWrong) as s) : NoLostWakeUp s ∧ LinksApart s := by
  obtain ⟨hwatched, hlinks⟩ := watched_run h
  refine ⟨fun h0 hquiet f => ?_, hlinks⟩
  by_contra hf
  have hsettles : s.settles f = true := by
    rw [Bool.not_eq_false, State.sleeps, Bool.and_eq_true] at hf
    rw [State.settles, Bool.and_eq_true]
    refine ⟨?_, hf.2⟩
    cases hp : s.core.pc f with
    | block mode b => rw [hp] at hf; cases b <;> simp_all [asleep, settled]
    | _ => rw [hp] at hf; cases hf.1
  rcases hwatched f hsettles with h2 | ⟨g, hg⟩
  · omega
  · -- who watches is not quiet
    have hq := hquiet g
    simp only [State.quiet, Bool.or_eq_true, beq_iff_eq] at hq
    rcases hq with (hq | hq) | hq
    · exact not_watches (by rw [hq]; rfl) (by rw [hq]; rfl) hg
    · exact not_watches (by rw [hq]; rfl) (by rw [hq]; rfl) hg
    · rw [State.sleeps, Bool.and_eq_true, beq_iff_eq] at hq
      rw [State.watches, State.woken, hq.2] at hg
      cases hp : s.core.pc g with
      | block mode b => rw [hp] at hq hg; cases b <;> simp_all [busy, asleep]
      | _ => rw [hp] at hq; cases hq.1

/-- `f` acquires the free mutex. -/
def holds (f : F) : List (Action F) := [.acquire f .plain, .next f true, .next f true]

/-- A fibre comes while the mutex is held, and is about to suspend. -/
def queues (f : F) (mode : Mode) : List (Action F) :=
  [.acquire f mode, .next f true, .next f true, .next f true, .next f true, .next f true]

/-- The timer of the last in the queue wins, and the fibre is in a ready queue while the holder wakes the
    first. -/
theorem sleepers_watched_of_run_timeout : ∃ as, ∃ s : State (Fin 3),
    Run (system (Fin 3) ⟨0, 0, 0, 0⟩) (Avoids goesWrong) as s ∧ s.queue = [2, 1] ∧
      s.woken 2 = true ∧ readied (s.core.pc 1) = true ∧ NoLostWakeUp s ∧ LinksApart s := by
  obtain ⟨s, hrun, hp⟩ := run_of_execAvoiding (system (Fin 3) ⟨0, 0, 0, 0⟩) goesWrong start
    (holds 0 ++ queues 2 .plain ++ [.next 2 true] ++ queues 1 .timed ++ [.next 1 true, .timer 1] ++
      [.release 0, .next 0 true, .next 0 true, .next 0 true])
    (fun s => decide (s.queue = [2, 1]) && s.woken 2 && readied (s.core.pc 1)) rfl (by decide)
  simp only [Bool.and_eq_true, decide_eq_true_eq] at hp
  obtain ⟨⟨hqueue, hwoken⟩, hreadied⟩ := hp
  exact ⟨_, s, hrun, hqueue, hwoken, hreadied, sleepers_watched_of_run hrun⟩

/-- WRONG: the head's timer wins before the head is parked, the holder's `unblock` fails on it, and the head
    leaves: the second fibre sleeps on a free mutex. -/
theorem sleeper_left : ¬ ∀ s, Reach (system (Fin 3) ⟨0, 0, 0, 0⟩) s → NoLostWakeUp s := by
  intro hall
  obtain ⟨s, hr, hp⟩ := reach_of_exec (system (Fin 3) ⟨0, 0, 0, 0⟩) start
    (holds 0 ++ queues 1 .timed ++ queues 2 .plain ++ [.next 2 true, .timer 1, .next 1 true] ++
      [.release 0, .next 0 true, .next 0 true, .next 0 true, .next 1 true])
    (fun s => s.core.value == 0 && decide (∀ f, s.quiet f = true) && s.sleeps 2) rfl (by decide)
  simp only [Bool.and_eq_true, beq_iff_eq, decide_eq_true_eq] at hp
  obtain ⟨⟨h0, hquiet⟩, hsleeps⟩ := hp
  rw [hall s hr h0 hquiet 2] at hsleeps
  cases hsleeps

end Libfibre.SpinCondMutex.ConditionalNemesisQueue
