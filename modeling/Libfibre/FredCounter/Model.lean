import Libfibre.Schemes.Tally
import Libfibre.IdleManager.Model

/-! The idle manager with a fred counter (`Scheduler.h` without `TESTING_GO_IDLEMANAGER`), the searches of
    a worker in front of it and the ready queues behind it (`BaseProcessor.cc`). A worker takes a token
    from the counter and then searches until it finds the fibre that goes with it; without a token it
    blocks, and is handed a fibre.

        readCounter ──▶ casCounter ──token──▶ search ──▶ busy
             ▲  │ 1023 times                    ▲         ▲
             └──┘                               │         │ handed a fibre
             └─────▶ getReadyFred ────token─────┘         │
                           └────────▶ block ──▶ halt ──▶ handover

    Each update of the counter and each section under a lock is one step. -/

namespace Libfibre.FredCounter
open Transition Tally
open IdleManager (Priority Agent dequeueInternal enqueue priorities idleSpinMax)

/-- Who calls `scheduleNonblocking`: `scheduleFull`, and round `i` of `scheduleIdle`. -/
inductive Caller where
  | full
  | idle (i : ℕ)
  deriving DecidableEq

/-- Who searches: `scheduleBlocking` with a token; `yield` and `yieldGlobal` without. -/
inductive Search where
  | blocking
  | yield (everywhere : Bool)
  deriving DecidableEq

/-- Where a worker is. -/
inductive Pc (n : ℕ) where
  | busy
  | postYield
  | readCounter (caller : Caller)
  | casCounter (caller : Caller) (c : ℤ)
  | search (ctx : Search) (victim : Fin (n + 1))
  | getReadyFred
  | block
  | halt
  | handover
  deriving DecidableEq

/-- Where a call of `enqueueResume` is. -/
inductive Add (n : ℕ) (Fb : Type) where
  | done
  | addReadyFred (f : Fb) (proc : Fin (n + 1))
  | enqueueFred (f : Fb) (proc : Fin (n + 1))
  | unblock (f : Fb) (proc : Fin (n + 1))
  | wake (f : Fb) (proc : Fin (n + 1))
  | haltSemV (f : Fb) (proc : Fin (n + 1))
  deriving DecidableEq

/-- No call of `addReadyFred` is under way. -/
def Add.isDone {n : ℕ} {Fb : Type} : Add n Fb → Bool
  | .done => true
  | _ => false

/-- The words of the idle manager, the workers and their ready queues. -/
structure State (n : ℕ) (P Fb : Type) where
  fredCounter : ℤ
  waitingProcs : List (Fin (n + 1))
  waitingFreds : List Fb
  queue : Fin (n + 1) → Priority → List Fb
  halting : Fin (n + 1) → Bool
  haltSem : Fin (n + 1) → ℕ
  handoverFred : Fin (n + 1) → Option Fb
  pc : Fin (n + 1) → Pc n
  add : Agent n P → Add n Fb

/-- A worker or an agent that adds a fibre takes a step. -/
inductive Action (n : ℕ) (P Fb : Type) where
  | next (w : Fin (n + 1)) (contended : Bool)
  | suspend (w : Fin (n + 1))
  | yield (w : Fin (n + 1)) (everywhere : Bool)
  | postYield (w v : Fin (n + 1)) (f : Fb)
  | enqueueResume (a : Agent n P) (v : Fin (n + 1)) (f : Fb)
  | addNext (a : Agent n P)

variable {n : ℕ} {P Fb : Type}

/-! ### A worker -/

/-- Where a worker goes on when it gets no token. -/
def noToken : Caller → Pc n
  | .full => .readCounter (.idle 1)
  | .idle i => if i + 1 < idleSpinMax then .readCounter (.idle (i + 1)) else .getReadyFred

/-- Where a worker goes on with the fibre it has found. -/
def found : Search → Pc n
  | .blocking => .busy
  | .yield _ => .postYield

/-- `ProcessorRing::next`. -/
def ringNext (v : Fin (n + 1)) : Fin (n + 1) := ⟨((v : ℕ) + 1) % (n + 1), Nat.mod_lt _ n.succ_pos⟩

/-- On to the next victim; a search with a token starts again at the end of the ring. -/
def advance (w : Fin (n + 1)) (v : Fin (n + 1)) : Search → Pc n
  | .blocking => .search .blocking (ringNext v)
  | .yield false => .busy
  | .yield true => if ringNext v = w then .busy else .search (.yield true) (ringNext v)

variable [DecidableEq P]

/-- Worker `w` goes to another place. -/
def State.goto (s : State n P Fb) (w : Fin (n + 1)) (p : Pc n) : State n P Fb :=
  { s with pc := Function.update s.pc w p }

/-- One ready queue of a search: `dequeue`, or `tryDequeue`, which a contended lock ends as well. -/
def searchNext (s : State n P Fb) (w : Fin (n + 1)) (ctx : Search) (v : Fin (n + 1))
    (contended : Bool) : State n P Fb :=
  if v ≠ w ∧ contended then s.goto w (advance w v ctx)
  else
    let r := dequeueInternal (s.queue v) priorities
    State.goto { s with queue := Function.update s.queue v r.2 } w
      (if r.1.isSome then found ctx else advance w v ctx)

/-- `block`. -/
def block (s : State n P Fb) (w : Fin (n + 1)) : State n P Fb :=
  match s.waitingFreds with
  | [] => State.goto { s with
      halting := Function.update s.halting w true
      waitingProcs := w :: s.waitingProcs } w .halt
  | _ :: rest => State.goto { s with waitingFreds := rest } w .busy

/-- The next step of a worker that is not running a fibre. -/
def workerNext (s : State n P Fb) (w : Fin (n + 1)) (contended : Bool) : Option (State n P Fb) :=
  match s.pc w with
  | .busy | .postYield => none
  | .readCounter caller =>
    some (s.goto w (if 0 < s.fredCounter then .casCounter caller s.fredCounter else noToken caller))
  | .casCounter caller c =>
    if s.fredCounter = c then
      some (State.goto { s with fredCounter := c - 1 } w (.search .blocking w))
    else some (s.goto w (noToken caller))
  | .search ctx v => some (searchNext s w ctx v contended)
  | .getReadyFred =>
    some (State.goto { s with fredCounter := s.fredCounter - 1 } w
      (if 0 < s.fredCounter then .search .blocking w else .block))
  | .block => some (block s w)
  | .halt =>
    if 0 < s.haltSem w then
      some (State.goto { s with haltSem := Function.update s.haltSem w (s.haltSem w - 1) } w .handover)
    else none
  | .handover => some (s.goto w .busy)

/-! ### `enqueueResume` -/

section Code
variable (wakeFredWorker : Bool) (priority : Fb → Priority)

/-- The agent goes to another place in `addReadyFred`. -/
def State.gotoAdd (s : State n P Fb) (a : Agent n P) (p : Add n Fb) : State n P Fb :=
  { s with add := Function.update s.add a p }

/-- `unblock`; `isHalting` tells nothing without `TESTING_WAKE_FRED_WORKER`. -/
def unblock (s : State n P Fb) (a : Agent n P) (f : Fb) (proc : Fin (n + 1)) : State n P Fb :=
  match s.waitingProcs with
  | [] => State.gotoAdd { s with waitingFreds := s.waitingFreds ++ [f] } a .done
  | first :: rest =>
    if wakeFredWorker ∧ s.halting proc then
      State.gotoAdd { s with
        halting := Function.update s.halting proc false
        waitingProcs := s.waitingProcs.erase proc } a (.wake f proc)
    else
      State.gotoAdd { s with
        halting := Function.update s.halting first false
        waitingProcs := rest } a (.wake f first)

/-- `enqueueFred`: into the queue of the fibre's priority. -/
def enqueueFred (s : State n P Fb) (v : Fin (n + 1)) (f : Fb) : State n P Fb :=
  { s with queue := Function.update s.queue v (enqueue priority (s.queue v) f) }

/-- The next step of a call of `enqueueResume`. -/
def addNext (s : State n P Fb) (a : Agent n P) : Option (State n P Fb) :=
  match s.add a with
  | .done => none
  | .addReadyFred f proc =>
    some (State.gotoAdd { s with fredCounter := s.fredCounter + 1 } a
      (if 0 < s.fredCounter + 1 then .enqueueFred f proc else .unblock f proc))
  | .enqueueFred f proc => some ((enqueueFred priority s proc f).gotoAdd a .done)
  | .unblock f proc => some (unblock wakeFredWorker s a f proc)
  | .wake f proc =>
    some (State.gotoAdd { s with handoverFred := Function.update s.handoverFred proc (some f) } a
      (.haltSemV f proc))
  | .haltSemV _ proc =>
    some (State.gotoAdd { s with haltSem := Function.update s.haltSem proc (s.haltSem proc + 1) } a
      .done)

/-! ### The system -/

/-- Who may call `enqueueResume`: pollers, and workers running a fibre or in a callback after the switch
    to their idle loop. -/
def mayResume (s : State n P Fb) : Agent n P → Bool
  | .inl w => match s.pc w with
    | .busy | .readCounter (.idle 1) => true
    | _ => false
  | .inr _ => true

/-- One step. A worker that is in `enqueueResume` does nothing else. -/
def step (s : State n P Fb) : Action n P Fb → Option (State n P Fb)
  | .next w contended => if (s.add (.inl w)).isDone then workerNext s w contended else none
  | .suspend w =>
    match s.pc w with
    | .busy => if (s.add (.inl w)).isDone then some (s.goto w (.readCounter .full)) else none
    | _ => none
  | .yield w everywhere =>
    match s.pc w with
    | .busy => if (s.add (.inl w)).isDone then some (s.goto w (.search (.yield everywhere) w)) else none
    | _ => none
  | .postYield w v f =>
    match s.pc w with
    | .postYield =>
      if (s.add (.inl w)).isDone then some ((enqueueFred priority s v f).goto w .busy) else none
    | _ => none
  | .enqueueResume a v f =>
    if (s.add a).isDone ∧ mayResume s a then some (s.gotoAdd a (.addReadyFred f v)) else none
  | .addNext a => addNext wakeFredWorker priority s a

/-- The workers enter `idleLoop`, with an initial fibre or without one. -/
structure Start (s : State n P Fb) : Prop where
  fredCounter : s.fredCounter = 0
  waitingProcs : s.waitingProcs = []
  waitingFreds : s.waitingFreds = []
  queue : ∀ v p, s.queue v p = []
  halting : ∀ w, s.halting w = false
  haltSem : ∀ w, s.haltSem w = 0
  pc : ∀ w, s.pc w = .readCounter (.idle 1) ∨ s.pc w = .busy
  add : ∀ a, s.add a = .done

/-- Any number of workers and agents. -/
def system : System (State n P Fb) (Action n P Fb) where
  init := Start
  step := step wakeFredWorker priority

end Code

theorem Add.isDone_iff {n : ℕ} {Fb : Type} {x : Add n Fb} : x.isDone = true ↔ x = .done := by
  cases x <;> simp [Add.isDone]

/-- What a step was. -/
theorem step_cases {wakeFredWorker : Bool} {priority : Fb → Priority} {s s' : State n P Fb}
    {c : Action n P Fb} (hs : step wakeFredWorker priority s c = some s') :
    match c with
    | .next w contended => s.add (.inl w) = .done ∧ workerNext s w contended = some s'
    | .suspend w => (s.add (.inl w) = .done ∧ s.pc w = .busy) ∧ s.goto w (.readCounter .full) = s'
    | .yield w everywhere =>
      (s.add (.inl w) = .done ∧ s.pc w = .busy) ∧ s.goto w (.search (.yield everywhere) w) = s'
    | .postYield w v f =>
      (s.add (.inl w) = .done ∧ s.pc w = .postYield) ∧
        (enqueueFred priority s v f).goto w .busy = s'
    | .enqueueResume a v f =>
      (s.add a = .done ∧ mayResume s a) ∧ s.gotoAdd a (.addReadyFred f v) = s'
    | .addNext a => addNext wakeFredWorker priority s a = some s' := by
  cases c with
  | next w contended =>
    simpa only [step, Option.ite_none_right_eq_some, Add.isDone_iff] using hs
  | suspend w | yield w everywhere | postYield w v f =>
    simp only [step] at hs
    split at hs
    · rename_i hpc
      obtain ⟨hdone, hs⟩ := Option.ite_none_right_eq_some.mp hs
      exact ⟨⟨Add.isDone_iff.mp hdone, hpc⟩, Option.some.inj hs⟩
    · cases hs
  | enqueueResume a v f =>
    obtain ⟨⟨hdone, hmay⟩, hs⟩ := Option.ite_none_right_eq_some.mp hs
    exact ⟨⟨Add.isDone_iff.mp hdone, hmay⟩, Option.some.inj hs⟩
  | addNext a => exact hs

end Libfibre.FredCounter
