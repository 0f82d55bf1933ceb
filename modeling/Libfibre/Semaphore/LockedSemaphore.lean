import Libfibre.Schemes.Transition
import Libfibre.Schemes.Tally
import Libfibre.Runtime.BlockingQueue
import Mathlib.Tactic.Linarith

/-! `LockedSemaphore` (`BlockingSync.h`): a counter and a queue of waiters under one internal lock, for
    any family of fibres. A `V` that finds a waiter with an open race hands its permit over without
    touching the counter; the waiters whose timers have already won stay in the queue and are
    skipped. Each section under the lock, each timer win and each resumption is one step.

        P ──▶ (counter ≥ 1) SemaphoreWasOpen
          └─▶ blocked ──▶ granted ──▶ SemaphoreSuccess
                 │ timer
                 ▼
              expired ──▶ (lock again, remove the node) SemaphoreTimeout

    `unlockP` also releases locks of its caller's, which are no part of the semaphore. -/

namespace Libfibre.LockedSemaphore
open Transition BlockingQueue Tally

/-- What a call of `P` returns. -/
inductive SemaphoreResult where
  | timeout
  | success
  | wasOpen
  deriving DecidableEq

/-- The result as the source's callers test it: 0 is `SemaphoreTimeout`. -/
def SemaphoreResult.ok : SemaphoreResult → Bool
  | .timeout => false
  | .success | .wasOpen => true

/-- Where a fibre is in the semaphore. -/
inductive Pc where
  | out
  | blocked (timed : Bool)
  | expired
  | granted
  deriving DecidableEq

structure State (F : Type) where
  counter : ℤ
  bq : List F
  pc : F → Pc

/-- Asleep in `bq` with an open race. -/
def Pc.waits : Pc → Bool
  | .blocked _ => true
  | _ => false

/-- Has a node in `bq`. -/
def Pc.queued : Pc → Bool
  | .blocked _ | .expired => true
  | _ => false

/-- Has been handed a permit and is yet to be resumed. -/
def Pc.isGranted : Pc → Bool
  | .granted => true
  | _ => false

variable {F : Type} [DecidableEq F]

def State.goto (s : State F) (f : F) (p : Pc) : State F :=
  { s with pc := Function.update s.pc f p }

def State.setCounter (s : State F) (n : ℤ) : State F := { s with counter := n }

/-- `push_back` of a node for `f` in `block`. -/
def State.join (s : State F) (f : F) (timed : Bool) : State F :=
  { s.goto f (.blocked timed) with bq := s.bq ++ [f] }

/-- `remove` of the node of `f` at the end of `block`. -/
def State.withdraw (s : State F) (f : F) : State F :=
  { s.goto f .out with bq := s.bq.erase f }

/-- The section of `P`; no result: the fibre blocks. -/
def internalP (s : State F) (f : F) (args : Args) : State F × Option SemaphoreResult :=
  if s.counter < 1 then
    if args.blocks then (s.join f args.timed, none)
    else (s, some .timeout)
  else (s.setCounter (s.counter - 1), some .wasOpen)

def tryP (s : State F) (f : F) : State F × Option SemaphoreResult := internalP s f (.wait false)

def unlockP (s : State F) (f : F) : State F × Option SemaphoreResult := internalP s f (.wait true)

/-- The section of `tryV`: a waiter is handed a permit that nobody has put in. -/
def tryV (s : State F) : State F × Option F :=
  match unblock (fun f => (s.pc f).waits) s.bq with
  | (some next, q) => ({ s.goto next .granted with bq := q }, some next)
  | (none, _) => (s, none)

/-- The section of `V`. -/
def V (binary : Bool) (s : State F) : State F × Option F :=
  match tryV s with
  | (s', some next) => (s', some next)
  | (s', none) => (s'.setCounter (if binary then 1 else s'.counter + 1), none)

/-- The timer of a waiter wins its resume race. -/
def timer (s : State F) (f : F) : Option (State F) :=
  if s.pc f = .blocked true then some (s.goto f .expired) else none

/-- The end of `block` after a timeout. -/
def cancel (s : State F) (f : F) : Option (State F) :=
  if s.pc f = .expired then some (s.withdraw f) else none

/-- A fibre that has been handed a permit runs again and leaves `block`. -/
def resumption (s : State F) (f : F) : Option (State F) :=
  if s.pc f = .granted then some (s.goto f .out) else none

def start (c : ℤ) : State F := { counter := c, bq := [], pc := fun _ => .out }

/-! ### One specification for each section -/

/-- The queue holds one node per waiting fibre, and of nobody else. -/
structure Queues (s : State F) : Prop where
  nodup : s.bq.Nodup
  mem : ∀ f, f ∈ s.bq ↔ (s.pc f).queued = true

/-- `next` is handed a permit and leaves the queue. -/
structure Grants (s : State F) (next : F) (s' : State F) : Prop where
  waits : (s.pc next).waits = true
  counter : s'.counter = s.counter
  pc : s'.pc = Function.update s.pc next .granted
  mem : ∀ f, f ∈ s'.bq ↔ f ∈ s.bq ∧ f ≠ next
  nodup : s'.bq.Nodup

@[simp] theorem goto_counter (s : State F) (f : F) (p : Pc) : (s.goto f p).counter = s.counter := rfl
@[simp] theorem goto_bq (s : State F) (f : F) (p : Pc) : (s.goto f p).bq = s.bq := rfl
@[simp] theorem goto_pc (s : State F) (f : F) (p : Pc) :
    (s.goto f p).pc = Function.update s.pc f p := rfl

@[simp] theorem join_counter (s : State F) (f : F) (timed : Bool) :
    (s.join f timed).counter = s.counter := rfl
@[simp] theorem join_pc (s : State F) (f : F) (timed : Bool) :
    (s.join f timed).pc = Function.update s.pc f (.blocked timed) := rfl
@[simp] theorem withdraw_counter (s : State F) (f : F) : (s.withdraw f).counter = s.counter := rfl
@[simp] theorem withdraw_pc (s : State F) (f : F) :
    (s.withdraw f).pc = Function.update s.pc f .out := rfl

omit [DecidableEq F] in
@[simp] theorem setCounter_counter (s : State F) (n : ℤ) : (s.setCounter n).counter = n := rfl
omit [DecidableEq F] in
@[simp] theorem setCounter_pc (s : State F) (n : ℤ) : (s.setCounter n).pc = s.pc := rfl

theorem waits_iff {p : Pc} : p.waits = true ↔ ∃ timed, p = .blocked timed := by
  cases p <;> simp [Pc.waits]

theorem internalP_cases (s : State F) (f : F) (args : Args) :
    (s.counter < 1 ∧ args.blocks = true ∧ internalP s f args = (s.join f args.timed, none)) ∨
    (s.counter < 1 ∧ args.blocks = false ∧ internalP s f args = (s, some .timeout)) ∨
    (1 ≤ s.counter ∧ internalP s f args = (s.setCounter (s.counter - 1), some .wasOpen)) := by
  rw [internalP]
  split_ifs with hc hb
  · exact Or.inl ⟨hc, hb, rfl⟩
  · exact Or.inr (Or.inl ⟨hc, Bool.not_eq_true _ ▸ hb, rfl⟩)
  · exact Or.inr (Or.inr ⟨by omega, rfl⟩)

theorem tryV_cases {s : State F} (hq : Queues s) :
    (∃ next s', tryV s = (s', some next) ∧ Grants s next s') ∨
    (tryV s = (s, none) ∧ ∀ f, (s.pc f).waits = false) := by
  have hall : ∀ f, (s.pc f).waits = true → f ∈ s.bq := fun f hf => by
    obtain ⟨timed, h⟩ := waits_iff.mp hf
    rw [hq.mem, h]; rfl
  rcases unblock_cases hq.nodup hall with ⟨next, q, h, hopen, hnd, hmem⟩ | ⟨h, hnone⟩
  · refine Or.inl ⟨next, { s.goto next .granted with bq := q }, ?_, hopen, rfl, rfl, hmem, hnd⟩
    rw [tryV, h]
  · exact Or.inr ⟨by rw [tryV, h], hnone⟩

theorem V_cases (binary : Bool) {s : State F} (hq : Queues s) :
    (∃ next s', V binary s = (s', some next) ∧ Grants s next s') ∨
    (V binary s = (s.setCounter (if binary then 1 else s.counter + 1), none) ∧
      ∀ f, (s.pc f).waits = false) := by
  rcases tryV_cases hq with ⟨next, s', h, hg⟩ | ⟨h, hnone⟩
  · exact Or.inl ⟨next, s', by rw [V, h], hg⟩
  · exact Or.inr ⟨by rw [V, h], hnone⟩

/-- A permit is handed to a fibre with a node in the queue, not to one outside. -/
theorem Grants.out {s s' : State F} {next f : F} (h : Grants s next s') (hpc : s.pc f = .out) :
    s'.pc f = .out := by
  rcases eq_or_ne f next with rfl | hne
  · have := h.waits
    rw [hpc] at this; cases this
  · rw [h.pc, Function.update_of_ne hne, hpc]

theorem timer_some {s s' : State F} {f : F} (h : timer s f = some s') :
    s.pc f = .blocked true ∧ s' = s.goto f .expired := by
  simp only [timer, Option.ite_none_right_eq_some, Option.some.injEq] at h
  exact ⟨h.1, h.2.symm⟩

theorem cancel_some {s s' : State F} {f : F} (h : cancel s f = some s') :
    s.pc f = .expired ∧ s' = s.withdraw f := by
  simp only [cancel, Option.ite_none_right_eq_some, Option.some.injEq] at h
  exact ⟨h.1, h.2.symm⟩

theorem resumption_some {s s' : State F} {f : F} (h : resumption s f = some s') :
    s.pc f = .granted ∧ s' = s.goto f .out := by
  simp only [resumption, Option.ite_none_right_eq_some, Option.some.injEq] at h
  exact ⟨h.1, h.2.symm⟩

/-! ### The sections keep the queue in order -/

theorem Queues.goto {s : State F} (hq : Queues s) {f : F} {p : Pc}
    (hp : p.queued = (s.pc f).queued) : Queues (s.goto f p) := by
  refine ⟨hq.nodup, fun g => ?_⟩
  rcases eq_or_ne g f with rfl | hg
  · simp [hq.mem, hp]
  · simp [hq.mem, hg]

omit [DecidableEq F] in
theorem Queues.setCounter {s : State F} (hq : Queues s) (n : ℤ) : Queues (s.setCounter n) :=
  ⟨hq.nodup, hq.mem⟩

theorem Queues.joined {s : State F} (hq : Queues s) {f : F} (hpc : s.pc f = .out) (timed : Bool) :
    Queues (s.join f timed) := by
  have hnew : f ∉ s.bq := by rw [hq.mem, hpc]; simp [Pc.queued]
  refine ⟨nodup_pushBack hq.nodup hnew, fun g => ?_⟩
  rcases eq_or_ne g f with rfl | hg
  · simp [State.join, Pc.queued]
  · simp [State.join, hq.mem, hg]

theorem Queues.cancelled {s : State F} (hq : Queues s) (f : F) :
    Queues (s.withdraw f) := by
  refine ⟨hq.nodup.erase f, fun g => ?_⟩
  rcases eq_or_ne g f with rfl | hg
  · simp [State.withdraw, hq.nodup.mem_erase_iff, Pc.queued]
  · simp [State.withdraw, hq.nodup.mem_erase_iff, hq.mem, hg]

theorem Grants.queues {s s' : State F} {next : F} (hq : Queues s) (h : Grants s next s') :
    Queues s' := by
  refine ⟨h.nodup, fun g => ?_⟩
  rcases eq_or_ne g next with rfl | hg
  · simp [h.mem, h.pc, Pc.queued]
  · simp [h.mem, h.pc, hq.mem, hg]

omit [DecidableEq F] in
theorem queues_start (c : ℤ) : Queues (start c : State F) := by
  constructor <;> simp [start, Pc.queued]

/-! ### Head counts -/

section Counting
variable [Fintype F]

/-- The fibres that have been handed a permit and are yet to return. -/
def State.grants (s : State F) : ℕ := tally (fun p => p.isGranted.toNat) s.pc

/-- The fibres with a node in the queue. -/
def State.queueds (s : State F) : ℕ := tally (fun p => p.queued.toNat) s.pc

omit [DecidableEq F] in
@[simp] theorem setCounter_grants (s : State F) (n : ℤ) : (s.setCounter n).grants = s.grants := rfl
omit [DecidableEq F] in
@[simp] theorem setCounter_queueds (s : State F) (n : ℤ) :
    (s.setCounter n).queueds = s.queueds := rfl

theorem grants_goto (s : State F) (f : F) (p : Pc) :
    (s.goto f p).grants + (s.pc f).isGranted.toNat = s.grants + p.isGranted.toNat :=
  tally_update _ s.pc f p

theorem queueds_goto (s : State F) (f : F) (p : Pc) :
    (s.goto f p).queueds + (s.pc f).queued.toNat = s.queueds + p.queued.toNat :=
  tally_update _ s.pc f p

theorem counts_joined {s : State F} {f : F} (hpc : s.pc f = .out) (timed : Bool) :
    (s.join f timed).grants = s.grants ∧ (s.join f timed).queueds = s.queueds + 1 := by
  have h1 := grants_goto s f (.blocked timed)
  have h2 := queueds_goto s f (.blocked timed)
  rw [hpc] at h1 h2
  exact ⟨h1, h2⟩

theorem Grants.counts {s s' : State F} {next : F} (h : Grants s next s') :
    s'.grants = s.grants + 1 ∧ s'.queueds + 1 = s.queueds := by
  have h1 := grants_goto s next .granted
  have h2 := queueds_goto s next .granted
  have hgrants : s'.grants = (s.goto next .granted).grants := by
    simp only [State.grants, h.pc, goto_pc]
  have hqueueds : s'.queueds = (s.goto next .granted).queueds := by
    simp only [State.queueds, h.pc, goto_pc]
  obtain ⟨timed, hn⟩ := waits_iff.mp h.waits
  rw [hn] at h1 h2
  rw [hgrants, hqueueds]
  exact ⟨h1, h2⟩

theorem counts_timer {s : State F} {f : F} (hpc : s.pc f = .blocked true) :
    (s.goto f .expired).grants = s.grants ∧ (s.goto f .expired).queueds = s.queueds := by
  have h1 := grants_goto s f .expired
  have h2 := queueds_goto s f .expired
  rw [hpc] at h1 h2
  exact ⟨h1, Nat.add_right_cancel h2⟩

theorem counts_cancel {s : State F} {f : F} (hpc : s.pc f = .expired) :
    (s.withdraw f).grants = s.grants ∧ (s.withdraw f).queueds + 1 = s.queueds := by
  have h1 := grants_goto s f .out
  have h2 := queueds_goto s f .out
  rw [hpc] at h1 h2
  exact ⟨h1, h2⟩

theorem counts_resumption {s : State F} {f : F} (hpc : s.pc f = .granted) :
    (s.goto f .out).grants + 1 = s.grants ∧ (s.goto f .out).queueds = s.queueds := by
  have h1 := grants_goto s f .out
  have h2 := queueds_goto s f .out
  rw [hpc] at h1 h2
  exact ⟨h1, h2⟩

end Counting

end Libfibre.LockedSemaphore
