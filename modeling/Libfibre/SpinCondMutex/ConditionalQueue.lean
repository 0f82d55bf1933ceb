import Libfibre.SpinCondMutex.Core
import Libfibre.Runtime.BlockingQueue

/-! `SpinCondMutex` over `ConditionalQueue` (`BlockingSync.h`), the default `FredMutex`: a
    `BlockingQueue` under a lock of its own, whose `block` looks at `value` again before it queues.

        locking ──▶ checking ──▶ pushing ──▶ asleep ──▶ granted ──▶ (relock)
                       │ value ≠ 2             │ timer
                       ▼                       ▼
                    (relock)                expired ──▶ (return false)

    Nobody sleeps on a mutex that is forgotten: behind every sleeper there is the value 2, a releaser
    that has yet to call `unblock`, or a woken fibre that has yet to write 2 again. -/

namespace Libfibre.SpinCondMutex.ConditionalQueue
open Transition

/-- The places inside `block`. A fibre that is `checking` or `pushing` holds the queue lock. -/
inductive Blocking where
  | locking
  | checking
  | pushing
  | asleep
  | expired
  | granted
  deriving DecidableEq

/-- A place in the mutex; `unblock` is a single section. -/
abbrev Place := Pc Blocking Unit

structure State (F : Type) where
  core : Core F Blocking Unit
  lock : Option F
  bq : List F

/-- The actions; `ahead` is what `timeout > Runtime::Timer::now()` says where the step asks. -/
inductive Action (F : Type) where
  | acquire (f : F) (mode : Mode)
  | tryAcquire (f : F)
  | release (f : F)
  | next (f : F) (ahead : Bool)
  | timer (f : F)
  | resumption (f : F)

/-- Asleep in the queue with an open race. -/
def asleep : Place → Bool
  | .block _ .asleep => true
  | _ => false

/-- The place of a sleeper whose race the queue has won. -/
def woken : Place → Place
  | .block mode .asleep => .block mode .granted
  | p => p

variable {F : Type} [DecidableEq F]

def State.goto (s : State F) (f : F) (p : Place) : State F := { s with core := s.core.goto f p }

/-- The next step of `f` inside `block`. -/
def blockNext (s : State F) (f : F) (mode : Mode) (ahead : Bool) : Blocking → Option (State F)
  | .locking =>
    if s.lock = none then some (State.goto { s with lock := some f } f (.block mode .checking))
    else none
  | .checking =>
    if s.core.value = 2 then
      if mode = .plain ∨ ahead then some (s.goto f (.block mode .pushing))
      else some (State.goto { s with lock := none } f .out)
    else some (State.goto { s with lock := none } f (.relock mode))
  | .pushing =>
    some (State.goto { s with lock := none, bq := s.bq ++ [f] } f (.block mode .asleep))
  | .expired =>
    if s.lock = none then some (State.goto { s with bq := s.bq.erase f } f .out) else none
  | .asleep | .granted => none

/-- The section of `unblock` under the queue lock; then `release` returns. -/
def unblockSection (s : State F) (f : F) : Option (State F) :=
  if s.lock = none then
    match BlockingQueue.unblock (fun g => asleep (s.core.pc g)) s.bq with
    | (some next, q) =>
      some ((State.goto { s with bq := q } next (woken (s.core.pc next))).goto f .out)
    | (none, _) => some (s.goto f .out)
  else none

/-- One step. -/
def step (P : Spins) (s : State F) : Action F → Option (State F)
  | .acquire f mode => (SpinCondMutex.acquire P s.core f mode).map fun core => { s with core := core }
  | .tryAcquire f => (SpinCondMutex.tryAcquire s.core f).map fun core => { s with core := core }
  | .release f => (SpinCondMutex.release s.core f).map fun core => { s with core := core }
  | .next f ahead =>
    match s.core.pc f with
    | .block mode b => blockNext s f mode ahead b
    | .unblock _ => unblockSection s f
    | _ =>
      (SpinCondMutex.next P (fun _ => .locking) () s.core f).map fun core => { s with core := core }
  | .timer f =>
    match s.core.pc f with
    | .block .timed .asleep => some (s.goto f (.block .timed .expired))
    | _ => none
  | .resumption f =>
    match s.core.pc f with
    | .block mode .granted => some (s.goto f (.relock mode))
    | _ => none

def start : State F := { core := SpinCondMutex.start, lock := none, bq := [] }

/-- The constructed mutex, with any spin parameters. -/
def system (F : Type) [DecidableEq F] (P : Spins) : System (State F) (Action F) where
  init s := s = start
  step := step P

/-! ### What a step does -/

/-- Has a node in the queue. -/
def queued : Place → Bool
  | .block _ .asleep | .block _ .expired => true
  | _ => false

/-- Holds the queue lock. -/
def locks : Place → Bool
  | .block _ .checking | .block _ .pushing => true
  | _ => false

/-- About to `tryLock2` after having been woken. -/
def relocks : Place → Bool
  | .relock _ | .block _ .granted => true
  | _ => false

/-- About to call `unblock`. -/
def unblocks : Place → Bool
  | .unblock _ => true
  | _ => false

/-- Asleep, or under the queue lock about to be. -/
def sleeps : Place → Bool
  | .block _ .asleep | .block _ .pushing => true
  | _ => false

/-- INVARIANT: the queue holds one node per waiter, and the lock is with the fibre inside it. -/
structure Queues (s : State F) : Prop where
  nodup : s.bq.Nodup
  mem : ∀ f, f ∈ s.bq ↔ queued (s.core.pc f) = true
  lock : ∀ f, s.lock = some f ↔ locks (s.core.pc f) = true

@[simp] theorem goto_core (s : State F) (f : F) (p : Place) :
    (s.goto f p).core = s.core.goto f p := rfl
@[simp] theorem goto_lock (s : State F) (f : F) (p : Place) : (s.goto f p).lock = s.lock := rfl
@[simp] theorem goto_bq (s : State F) (f : F) (p : Place) : (s.goto f p).bq = s.bq := rfl

/-- Everything an action can do. -/
inductive Did (s : State F) : State F → Prop
  | outside {f : F} {core : Core F Blocking Unit} :
      Outside (fun _ => .locking) () s.core f core → SpinCondMutex.Did s.core f core →
      Did s { s with core := core }
  | locked {f : F} {mode : Mode} : s.core.pc f = .block mode .locking → s.lock = none →
      Did s (State.goto { s with lock := some f } f (.block mode .checking))
  | sawTwo {f : F} {mode : Mode} : s.core.pc f = .block mode .checking → s.core.value = 2 →
      Did s (s.goto f (.block mode .pushing))
  | late {f : F} {mode : Mode} : s.core.pc f = .block mode .checking →
      Did s (State.goto { s with lock := none } f .out)
  | sawOther {f : F} {mode : Mode} : s.core.pc f = .block mode .checking →
      Did s (State.goto { s with lock := none } f (.relock mode))
  | pushed {f : F} {mode : Mode} : s.core.pc f = .block mode .pushing →
      Did s (State.goto { s with lock := none, bq := s.bq ++ [f] } f (.block mode .asleep))
  | cancelled {f : F} {mode : Mode} : s.core.pc f = .block mode .expired → s.lock = none →
      Did s (State.goto { s with bq := s.bq.erase f } f .out)
  | woke {f next : F} {u : Unit} {mode : Mode} {q : List F} : s.core.pc f = .unblock u →
      s.lock = none → s.core.pc next = .block mode .asleep → q.Nodup →
      (∀ g, g ∈ q ↔ g ∈ s.bq ∧ g ≠ next) →
      Did s ((State.goto { s with bq := q } next (.block mode .granted)).goto f .out)
  | nobody {f : F} {u : Unit} : s.core.pc f = .unblock u → s.lock = none →
      (∀ g, asleep (s.core.pc g) = false) → Did s (s.goto f .out)
  | timedOut {f : F} : s.core.pc f = .block .timed .asleep →
      Did s (s.goto f (.block .timed .expired))
  | resumed {f : F} {mode : Mode} : s.core.pc f = .block mode .granted →
      Did s (s.goto f (.relock mode))

theorem asleep_iff {p : Place} : asleep p = true ↔ ∃ mode, p = .block mode .asleep := by
  cases p with
  | block mode b => cases b <;> simp [asleep]
  | _ => simp [asleep]

theorem unblock_did {s s' : State F} {f : F} {u : Unit} (hq : Queues s)
    (hpc : s.core.pc f = .unblock u) (h : unblockSection s f = some s') : Did s s' := by
  have hall : ∀ g, asleep (s.core.pc g) = true → g ∈ s.bq := fun g hg => by
    obtain ⟨mode, h⟩ := asleep_iff.mp hg
    rw [hq.mem, h]; rfl
  simp only [unblockSection, Option.ite_none_right_eq_some] at h
  obtain ⟨hlock, h⟩ := h
  rcases BlockingQueue.unblock_cases hq.nodup hall with
    ⟨next, q, hun, hopen, hnd, hmem⟩ | ⟨hun, hnone⟩
  · obtain ⟨mode, hnext⟩ := asleep_iff.mp hopen
    simp only [hun, hnext, woken] at h
    rw [← Option.some.inj h]
    exact .woke hpc hlock hnext hnd hmem
  · rw [hun] at h
    rw [← Option.some.inj h]
    exact .nobody hpc hlock hnone

theorem block_did {s s' : State F} {f : F} {mode : Mode} {ahead : Bool} {b : Blocking}
    (hpc : s.core.pc f = .block mode b) (h : blockNext s f mode ahead b = some s') : Did s s' := by
  cases b with
  | locking =>
    simp only [blockNext, Option.ite_none_right_eq_some, Option.some.injEq] at h
    obtain ⟨hlock, rfl⟩ := h
    exact .locked hpc hlock
  | checking =>
    rw [blockNext] at h
    split_ifs at h with h2 hwait <;> rw [← Option.some.inj h]
    · exact .sawTwo hpc h2
    · exact .late hpc
    · exact .sawOther hpc
  | pushing =>
    rw [← Option.some.inj h]
    exact .pushed hpc
  | expired =>
    simp only [blockNext, Option.ite_none_right_eq_some, Option.some.injEq] at h
    obtain ⟨hlock, rfl⟩ := h
    exact .cancelled hpc hlock
  | asleep => cases h
  | granted => cases h

/-- INVERSION: every step is one of the listed ones. -/
theorem step_did {P : Spins} {s s' : State F} {a : Action F} (hq : Queues s)
    (h : step P s a = some s') : Did s s' := by
  cases a with
  | acquire f mode =>
    obtain ⟨core, hcore, rfl⟩ := Option.map_eq_some_iff.mp h
    refine .outside (acquire_outside hcore) ?_
    obtain ⟨hpc, rfl⟩ := acquire_did hcore
    exact .moved (by rw [hpc]; rfl) rfl
  | tryAcquire f =>
    obtain ⟨core, hcore, rfl⟩ := Option.map_eq_some_iff.mp h
    refine .outside (tryAcquire_outside hcore) ?_
    obtain ⟨hpc, rfl⟩ := tryAcquire_did hcore
    exact .moved (by rw [hpc]; rfl) rfl
  | release f =>
    obtain ⟨core, hcore, rfl⟩ := Option.map_eq_some_iff.mp h
    refine .outside (release_outside hcore) ?_
    obtain ⟨hpc, rfl⟩ := release_did hcore
    exact .disowned hpc
  | next f ahead =>
    rw [step] at h
    split at h
    · exact block_did ‹_› h
    · exact unblock_did hq ‹_› h
    · obtain ⟨core, hcore, rfl⟩ := Option.map_eq_some_iff.mp h
      exact .outside (next_outside hcore) (next_did hcore)
  | timer f =>
    rw [step] at h
    split at h
    · rw [← Option.some.inj h]
      exact .timedOut ‹_›
    · cases h
  | resumption f =>
    rw [step] at h
    split at h
    · rw [← Option.some.inj h]
      exact .resumed ‹_›
    · cases h

/-! ### Exclusion -/

/-- STEP: the queue moves fibres only between places in which they do not hold the mutex. -/
theorem exclusive_step {P : Spins} {s s' : State F} {a : Action F} (hq : Queues s)
    (hi : Exclusive s.core) (h : step P s a = some s') : Exclusive s'.core := by
  have hmove : ∀ {f : F} {p : Place}, (s.core.pc f).critical = false → p.critical = false →
      Exclusive (s.core.goto f p) := fun hf hp => (SpinCondMutex.Did.moved hf hp).exclusive hi
  cases step_did hq h with
  | outside _ hcore => exact hcore.exclusive hi
  | locked hpc => exact hmove (by rw [hpc]; rfl) rfl
  | sawTwo hpc => exact hmove (by rw [hpc]; rfl) rfl
  | late hpc => exact hmove (by rw [hpc]; rfl) rfl
  | sawOther hpc => exact hmove (by rw [hpc]; rfl) rfl
  | pushed hpc => exact hmove (by rw [hpc]; rfl) rfl
  | cancelled hpc => exact hmove (by rw [hpc]; rfl) rfl
  | @woke f next u mode q hpc _ hnext =>
    refine (SpinCondMutex.Did.moved ?_ rfl).exclusive (hmove (by rw [hnext]; rfl) rfl)
    rcases eq_or_ne f next with rfl | hne
    · rw [hpc] at hnext; cases hnext
    · rw [goto_core, SpinCondMutex.goto_pc, Function.update_of_ne hne, hpc]; rfl
  | nobody hpc => exact hmove (by rw [hpc]; rfl) rfl
  | timedOut hpc => exact hmove (by rw [hpc]; rfl) rfl
  | resumed hpc => exact hmove (by rw [hpc]; rfl) rfl

/-! ### The queue and its lock -/

omit [DecidableEq F] in
theorem queues_start : Queues (start : State F) := by
  constructor <;> simp [start, SpinCondMutex.start, queued, locks]

/-- A step of `f`, with its share in the queue and in the lock. -/
theorem Queues.moves {s s' : State F} (hq : Queues s) {f : F} {p : Place}
    (hpc : s'.core.pc = Function.update s.core.pc f p) (hnd : s'.bq.Nodup)
    (hothers : ∀ g, g ≠ f → (g ∈ s'.bq ↔ g ∈ s.bq)) (hmem : f ∈ s'.bq ↔ queued p = true)
    (hlothers : ∀ g, g ≠ f → (s'.lock = some g ↔ s.lock = some g))
    (hlock : s'.lock = some f ↔ locks p = true) : Queues s' := by
  refine ⟨hnd, fun g => ?_, fun g => ?_⟩ <;> rcases eq_or_ne g f with rfl | hg
  · rw [hpc, Function.update_self]; exact hmem
  · rw [hpc, Function.update_of_ne hg, hothers g hg, hq.mem]
  · rw [hpc, Function.update_self]; exact hlock
  · rw [hpc, Function.update_of_ne hg, hlothers g hg, hq.lock]

/-- A step of `f` that leaves the queue and the lock alone. -/
theorem Queues.stays {s s' : State F} (hq : Queues s) {f : F} {p : Place}
    (hpc : s'.core.pc = Function.update s.core.pc f p) (hbq : s'.bq = s.bq)
    (hlk : s'.lock = s.lock) (hmem : queued p = queued (s.core.pc f))
    (hlock : locks p = locks (s.core.pc f)) : Queues s' := by
  refine hq.moves hpc (hbq ▸ hq.nodup) (fun g _ => by rw [hbq]) ?_ (fun g _ => by rw [hlk]) ?_
  · rw [hbq, hq.mem, hmem]
  · rw [hlk, hq.lock, hlock]

omit [DecidableEq F] in
/-- A fibre inside the lock is the only one there. -/
theorem Queues.lock_eq {s : State F} (hq : Queues s) {f g : F} (hf : locks (s.core.pc f) = true)
    (hg : g ≠ f) : s.lock ≠ some g := by
  intro h
  rw [← hq.lock] at hf
  rw [hf, Option.some.injEq] at h
  exact hg h.symm

/-- A fibre leaves the lock. -/
theorem Queues.unlocks {s s' : State F} (hq : Queues s) {f : F} {p : Place}
    (hf : locks (s.core.pc f) = true)
    (hpc : s'.core.pc = Function.update s.core.pc f p) (hnd : s'.bq.Nodup)
    (hothers : ∀ g, g ≠ f → (g ∈ s'.bq ↔ g ∈ s.bq)) (hmem : f ∈ s'.bq ↔ queued p = true)
    (hlk : s'.lock = none) (hlock : locks p = false) : Queues s' := by
  refine hq.moves hpc hnd hothers hmem (fun g hg => ?_) ?_
  · simp [hlk, hq.lock_eq hf hg]
  · simp [hlk, hlock]

omit [DecidableEq F] in
/-- A step outside the queue starts and ends at places of no account to the queue. -/
theorem outside_from {c core : Core F Blocking Unit} {f : F}
    (h : Outside (fun _ => Blocking.locking) () c f core) :
    queued (c.pc f) = false ∧ locks (c.pc f) = false ∧ sleeps (c.pc f) = false ∧
      unblocks (c.pc f) = false := by
  cases hp : c.pc f with
  | block mode b => exact absurd hp (h.notBlocking mode b)
  | unblock u => exact absurd hp (h.notUnblocking u)
  | _ => exact ⟨rfl, rfl, rfl, rfl⟩

omit [DecidableEq F] in
theorem outside_to {c core : Core F Blocking Unit} {f : F}
    (h : Outside (fun _ => Blocking.locking) () c f core) :
    queued (core.pc f) = false ∧ locks (core.pc f) = false ∧ sleeps (core.pc f) = false := by
  cases hp : core.pc f with
  | block mode b => rw [h.enters mode b hp]; exact ⟨rfl, rfl, rfl⟩
  | _ => exact ⟨rfl, rfl, rfl⟩

theorem queues_step {P : Spins} {s s' : State F} {a : Action F} (hq : Queues s)
    (h : step P s a = some s') : Queues s' := by
  cases step_did hq h with
  | @outside f core hout =>
    obtain ⟨hqueued, hlocks, -, -⟩ := outside_from hout
    obtain ⟨hqueued', hlocks', -⟩ := outside_to hout
    refine hq.stays (f := f) (p := core.pc f) ?_ rfl rfl (by rw [hqueued, hqueued'])
      (by rw [hlocks, hlocks'])
    funext g
    rcases eq_or_ne g f with rfl | hg
    · rw [Function.update_self]
    · rw [Function.update_of_ne hg]; exact hout.others g hg
  | @locked f mode hpc hlock =>
    refine hq.moves rfl hq.nodup (fun _ _ => Iff.rfl) ?_ (fun g hg => ?_) ?_
    · rw [goto_bq, hq.mem, hpc]; rfl
    · simp [hlock, Ne.symm hg]
    · simp [locks]
  | sawTwo hpc => exact hq.stays rfl rfl rfl (by rw [hpc]; rfl) (by rw [hpc]; rfl)
  | late hpc =>
    exact hq.unlocks (by rw [hpc]; rfl) rfl hq.nodup (fun _ _ => Iff.rfl)
      (by rw [goto_bq, hq.mem, hpc]; rfl) rfl rfl
  | sawOther hpc =>
    exact hq.unlocks (by rw [hpc]; rfl) rfl hq.nodup (fun _ _ => Iff.rfl)
      (by rw [goto_bq, hq.mem, hpc]; rfl) rfl rfl
  | @pushed f mode hpc =>
    have hnew : f ∉ s.bq := by rw [hq.mem, hpc]; simp [queued]
    exact hq.unlocks (by rw [hpc]; rfl) rfl (BlockingQueue.nodup_pushBack hq.nodup hnew)
      (fun g hg => by simp [hg]) (by simp [queued]) rfl rfl
  | @cancelled f mode hpc hlock =>
    refine hq.moves rfl (hq.nodup.erase f) (fun g hg => ?_) ?_ (fun _ _ => Iff.rfl) ?_
    · simp [hq.nodup.mem_erase_iff, hg]
    · simp [hq.nodup.mem_erase_iff, queued]
    · simp [hlock, locks]
  | @woke f next u mode q hpc hlock hnext hnd hmem =>
    have hne : f ≠ next := by rintro rfl; rw [hpc] at hnext; cases hnext
    have h1 : Queues (State.goto { s with bq := q } next (.block mode .granted)) := by
      refine hq.moves rfl hnd (fun g hg => ?_) ?_ (fun _ _ => Iff.rfl) ?_
      · simp [hmem, hg]
      · simp [hmem, queued]
      · simp [hlock, locks]
    have hf : (State.goto { s with bq := q } next (.block mode .granted)).core.pc f = .unblock u := by
      simp [hne, hpc]
    exact h1.stays rfl rfl rfl (by rw [hf]; rfl) (by rw [hf]; rfl)
  | nobody hpc => exact hq.stays rfl rfl rfl (by rw [hpc]; rfl) (by rw [hpc]; rfl)
  | timedOut hpc => exact hq.stays rfl rfl rfl (by rw [hpc]; rfl) (by rw [hpc]; rfl)
  | resumed hpc => exact hq.stays rfl rfl rfl (by rw [hpc]; rfl) (by rw [hpc]; rfl)

/-! ### No sleeper is forgotten -/

/-- INVARIANT: behind a sleeper there is the value 2, a releaser about to call `unblock`, or a woken
    fibre about to `tryLock2`. -/
def Watched (s : State F) : Prop :=
  ∀ f, sleeps (s.core.pc f) = true → s.core.value = 2 ∨
    ∃ g, unblocks (s.core.pc g) = true ∨ relocks (s.core.pc g) = true

/-- A step of `f` that does not put it to sleep and leaves the value and its watch, if it keeps one. -/
theorem Watched.stays {s s' : State F} (hi : Watched s) {f : F} {p : Place}
    (hpc : s'.core.pc = Function.update s.core.pc f p) (hvalue : s'.core.value = s.core.value)
    (hsleeps : sleeps p = true → sleeps (s.core.pc f) = true)
    (hwatch : unblocks (s.core.pc f) = true ∨ relocks (s.core.pc f) = true →
      unblocks p = true ∨ relocks p = true) : Watched s' := by
  intro g hg
  have hslept : sleeps (s.core.pc g) = true := by
    rw [hpc] at hg
    rcases eq_or_ne g f with rfl | hgf
    · rw [Function.update_self] at hg; exact hsleeps hg
    · rwa [Function.update_of_ne hgf] at hg
  rw [hvalue, hpc]
  rcases hi g hslept with h2 | ⟨x, hx⟩
  · exact Or.inl h2
  · refine Or.inr ⟨x, ?_⟩
    rcases eq_or_ne x f with rfl | hxf
    · rw [Function.update_self]; exact hwatch hx
    · rwa [Function.update_of_ne hxf]

/-- STEP: only the value 2 lets a fibre go to sleep, and nobody takes a watch away unless somebody
    else has it. -/
theorem watched_step {P : Spins} {s s' : State F} {a : Action F} (hq : Queues s) (hi : Watched s)
    (h : step P s a = some s') : Watched s' := by
  cases step_did hq h with
  | @outside f core hout =>
    intro g hg
    have hgf : g ≠ f := by
      rintro rfl
      rw [(outside_to hout).2.2] at hg; cases hg
    have hslept : sleeps (s.core.pc g) = true := by rwa [← hout.others g hgf]
    rcases hi g hslept with h2 | ⟨x, hx⟩
    · rcases hout.two h2 with h2' | hleave
      · exact Or.inl h2'
      · exact Or.inr ⟨f, Or.inl (by rw [hleave]; rfl)⟩
    · rcases eq_or_ne x f with rfl | hxf
      · -- `f` itself was on watch, and has just written 2 again
        rw [(outside_from hout).2.2.2] at hx
        cases hp : s.core.pc x with
        | relock mode => exact Or.inl (hout.relocked mode hp)
        | block mode b => exact absurd hp (hout.notBlocking mode b)
        | _ => rw [hp] at hx; simp [relocks] at hx
      · exact Or.inr ⟨x, by rwa [hout.others x hxf]⟩
  | locked hpc => exact hi.stays rfl rfl (fun h => by cases h) (by rw [hpc]; simp [unblocks, relocks])
  | sawTwo _ h2 => exact fun _ _ => Or.inl h2
  | late hpc => exact hi.stays rfl rfl (fun h => by cases h) (by rw [hpc]; simp [unblocks, relocks])
  | sawOther => exact hi.stays rfl rfl (fun h => by cases h) fun _ => Or.inr rfl
  | pushed hpc =>
    exact hi.stays rfl rfl (fun _ => by rw [hpc]; rfl) (by rw [hpc]; simp [unblocks, relocks])
  | cancelled hpc =>
    exact hi.stays rfl rfl (fun h => by cases h) (by rw [hpc]; simp [unblocks, relocks])
  | @woke f next u mode q hpc _ hnext =>
    have hne : next ≠ f := by rintro rfl; rw [hpc] at hnext; cases hnext
    exact fun _ _ => Or.inr ⟨next, Or.inr (by simp [hne, relocks])⟩
  | @nobody f u hpc hlock hnone =>
    intro g hg
    rcases eq_or_ne g f with rfl | hgf
    · simp [sleeps] at hg
    · rw [goto_core, SpinCondMutex.goto_pc, Function.update_of_ne hgf] at hg
      have hawake := hnone g
      have hunlocked : ¬ locks (s.core.pc g) = true := by rw [← hq.lock, hlock]; simp
      cases hp : s.core.pc g with
      | block mode b => rw [hp] at hg hawake hunlocked; cases b <;> simp_all [sleeps, asleep, locks]
      | _ => rw [hp] at hg; cases hg
  | timedOut hpc =>
    exact hi.stays rfl rfl (fun h => by cases h) (by rw [hpc]; simp [unblocks, relocks])
  | resumed => exact hi.stays rfl rfl (fun h => by cases h) fun _ => Or.inr rfl

theorem mutex_reach {P : Spins} {s : State F} (h : Reach (system F P) s) :
    Queues s ∧ Exclusive s.core ∧ Watched s := by
  refine h.inv (I := fun s => Queues s ∧ Exclusive s.core ∧ Watched s) ?_ ?_
  · rintro _ rfl
    exact ⟨queues_start, exclusive_start, fun _ h => by cases h⟩
  · rintro s a s' ⟨hq, he, hw⟩ hs
    exact ⟨queues_step hq hs, exclusive_step hq he hs, watched_step hq hw hs⟩

/-- Outside `acquire` and `release`, or asleep in the queue. -/
def quiet : Place → Bool
  | .out | .holder | .block _ .asleep => true
  | _ => false

/-- CORRECT: in every interleaving at most one fibre is between a successful acquire and its release;
    behind a sleeper there is the value 2, a releaser about to call `unblock` or a woken fibre about
    to `tryLock2`; so nobody sleeps on a free and quiet mutex. -/
theorem exclusion_and_wakeUp (F : Type) [DecidableEq F] (P : Spins) (s : State F)
    (hr : Reach (system F P) s) :
    (∀ f g, (s.core.pc f).critical = true → (s.core.pc g).critical = true → f = g) ∧
    (∀ f, asleep (s.core.pc f) = true → s.core.value = 2 ∨
      (∃ g, unblocks (s.core.pc g) = true) ∨ ∃ g, relocks (s.core.pc g) = true) ∧
    (s.core.value = 0 → (∀ f, quiet (s.core.pc f) = true) → ∀ f, asleep (s.core.pc f) = false) := by
  obtain ⟨-, he, hw⟩ := mutex_reach hr
  have hwatch : ∀ f, asleep (s.core.pc f) = true → s.core.value = 2 ∨
      (∃ g, unblocks (s.core.pc g) = true) ∨ ∃ g, relocks (s.core.pc g) = true := by
    intro f hf
    obtain ⟨mode, hpc⟩ := asleep_iff.mp hf
    rcases hw f (by rw [hpc]; rfl) with h2 | ⟨g, hg | hg⟩
    · exact Or.inl h2
    · exact Or.inr (Or.inl ⟨g, hg⟩)
    · exact Or.inr (Or.inr ⟨g, hg⟩)
  refine ⟨he.unique, hwatch, fun h0 hquiet f => ?_⟩
  by_contra hf
  rw [Bool.not_eq_false] at hf
  -- what is behind the sleeper is not quiet
  have hbusy : ∀ p : Place, quiet p = true → unblocks p = false ∧ relocks p = false := by
    intro p hp
    cases p with
    | block mode b => cases b <;> simp_all [quiet, unblocks, relocks]
    | _ => simp_all [quiet, unblocks, relocks]
  rcases hwatch f hf with h2 | ⟨g, hg⟩ | ⟨g, hg⟩
  · omega
  · rw [(hbusy _ (hquiet g)).1] at hg; cases hg
  · rw [(hbusy _ (hquiet g)).2] at hg; cases hg

/-- A holder releases a contended mutex and wakes the sleeper. -/
theorem exclusion_and_wakeUp_handOver : ∃ s : State (Fin 2), Reach (system (Fin 2) ⟨0, 0, 0, 0⟩) s ∧
    s.core.value = 0 ∧ relocks (s.core.pc 1) = true ∧
    ∀ f g, (s.core.pc f).critical = true → (s.core.pc g).critical = true → f = g := by
  obtain ⟨s, hr, hp⟩ := reach_of_exec (system (Fin 2) ⟨0, 0, 0, 0⟩) start
    [.acquire 0 .plain, .next 0 true, .next 0 true, .acquire 1 .timed, .next 1 true, .next 1 true,
      .next 1 true, .next 1 true, .next 1 true, .release 0, .next 0 true, .next 0 true]
    (fun s => s.core.value == 0 && relocks (s.core.pc 1)) rfl (by decide)
  simp only [Bool.and_eq_true, beq_iff_eq] at hp
  exact ⟨s, hr, hp.1, hp.2, (exclusion_and_wakeUp (Fin 2) ⟨0, 0, 0, 0⟩ s hr).1⟩

end Libfibre.SpinCondMutex.ConditionalQueue
