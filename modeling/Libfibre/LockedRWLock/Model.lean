import Libfibre.Schemes.Transition
import Libfibre.Runtime.BlockingQueue
import Mathlib.Tactic.Linarith

/-! `LockedRWLock` (`BlockingSync.h`): the counter `state` (-1 writer, 0 open, > 0 readers) and the
    queues `bqR` and `bqW` under one internal lock, for any family of fibres. Each section under
    that lock, each timer win of a waiter's resume race and each resumption is one step. Ownership is
    passed by baton: the section that takes a fibre out of a queue has already counted it, and a
    woken reader runs one more section of its own (`cascade`) to pull out the next reader.

        acquireRead ──▶ blockedR ──▶ grantedR ──▶ cascade ──▶ reader ──▶ release
                           │ timer
                           ▼
                        expiredR ──▶ (lock again, remove the node, return false) -/

namespace Libfibre.LockedRWLock
open Transition BlockingQueue

/-- Where a fibre is. A granted fibre has been taken out of its queue and is yet to be resumed; an
    expired one has lost its race to its timer and has yet to remove its node. -/
inductive Pc where
  | out
  | reader
  | writer
  | blockedR (timed : Bool)
  | blockedW (timed : Bool)
  | expiredR
  | expiredW
  | grantedR
  | grantedW
  | cascade
  deriving DecidableEq

/-- `state`, the two queues, and where each fibre is. -/
structure State (F : Type) where
  state : ℤ
  bqR : List F
  bqW : List F
  pc : F → Pc

/-- A call, the section of one that is resumed, or a timer. -/
inductive Action (F : Type) where
  | acquireRead (f : F) (args : Args)
  | acquireWrite (f : F) (args : Args)
  | release (f : F)
  | timer (f : F)
  | cancel (f : F)
  | resumption (f : F)
  | cascade (f : F)

/-- Asleep in `bqR` with an open race. -/
def Pc.waitsR : Pc → Bool
  | .blockedR _ => true
  | _ => false

/-- Asleep in `bqW`, with its race open. -/
def Pc.waitsW : Pc → Bool
  | .blockedW _ => true
  | _ => false

/-- Holds the read lock or has been granted it. -/
def Pc.reads : Pc → Bool
  | .reader | .grantedR | .cascade => true
  | _ => false

/-- Holds the lock as the writer, or has been given it. -/
def Pc.writes : Pc → Bool
  | .writer | .grantedW => true
  | _ => false

/-- Has a node in `bqR`. -/
def Pc.queuedR : Pc → Bool
  | .blockedR _ | .expiredR => true
  | _ => false

/-- Has a node in `bqW`. -/
def Pc.queuedW : Pc → Bool
  | .blockedW _ | .expiredW => true
  | _ => false

variable {F : Type} [DecidableEq F]

/-- Fibre `f` goes to another place. -/
def State.goto (s : State F) (f : F) (p : Pc) : State F :=
  { s with pc := Function.update s.pc f p }

/-- `bqR.unblock` with the `state += 1` of its caller. -/
def unblockR (s : State F) : Option (State F) :=
  match unblock (fun f => (s.pc f).waitsR) s.bqR with
  | (some next, q) => some { s.goto next .grantedR with state := s.state + 1, bqR := q }
  | (none, _) => none

/-- `bqW.unblock` with the `state -= 1` of its caller. -/
def unblockW (s : State F) : Option (State F) :=
  match unblock (fun f => (s.pc f).waitsW) s.bqW with
  | (some next, q) => some { s.goto next .grantedW with state := s.state - 1, bqW := q }
  | (none, _) => none

/-- The first section of `internalAR`; a call that does not block here returns. -/
def internalAR (s : State F) (f : F) (args : Args) : State F :=
  if 0 ≤ s.state ∧ s.bqW = [] then { s.goto f .reader with state := s.state + 1 }
  else if args.blocks then { s.goto f (.blockedR args.timed) with bqR := s.bqR ++ [f] }
  else s

/-- The second section of `internalAR`, after `bqR.block` has returned `true`. -/
def cascade (s : State F) (f : F) : State F :=
  (unblockR (s.goto f .reader)).getD (s.goto f .reader)

/-- `internalAW`: the write lock, a place in `bqW`, or nothing. -/
def internalAW (s : State F) (f : F) (args : Args) : State F :=
  if s.state = 0 then { s.goto f .writer with state := s.state - 1 }
  else if args.blocks then { s.goto f (.blockedW args.timed) with bqW := s.bqW ++ [f] }
  else s

/-- The section of `release`: a leaving reader lets a writer go first, a leaving writer a reader. -/
def releaseSection (s : State F) : State F :=
  if 0 < s.state then
    let s := { s with state := s.state - 1 }
    if 0 < s.state then s else (unblockW s).getD ((unblockR s).getD s)
  else
    let s := { s with state := s.state + 1 }
    (unblockR s).getD ((unblockW s).getD s)

/-- One step; a call starts from `out`, and only a holder releases. -/
def step (s : State F) : Action F → Option (State F)
  | .acquireRead f args => if s.pc f = .out then some (internalAR s f args) else none
  | .acquireWrite f args => if s.pc f = .out then some (internalAW s f args) else none
  | .release f =>
    if s.pc f = .reader ∨ s.pc f = .writer then some (releaseSection (s.goto f .out)) else none
  | .timer f =>
    match s.pc f with
    | .blockedR true => some (s.goto f .expiredR)
    | .blockedW true => some (s.goto f .expiredW)
    | _ => none
  | .cancel f =>
    match s.pc f with
    | .expiredR => some { s.goto f .out with bqR := s.bqR.erase f }
    | .expiredW => some { s.goto f .out with bqW := s.bqW.erase f }
    | _ => none
  | .resumption f =>
    match s.pc f with
    | .grantedR => some (s.goto f .cascade)
    | .grantedW => some (s.goto f .writer)
    | _ => none
  | .cascade f => if s.pc f = .cascade then some (cascade s f) else none

/-- The constructed lock: nobody holds it, nobody waits. -/
def start : State F := { state := 0, bqR := [], bqW := [], pc := fun _ => .out }

/-- Any number of fibres use the lock. -/
def system (F : Type) [DecidableEq F] : System (State F) (Action F) where
  init s := s = start
  step := step

/-! ### What a section does -/

@[simp] theorem goto_state (s : State F) (f : F) (p : Pc) : (s.goto f p).state = s.state := rfl
@[simp] theorem goto_bqR (s : State F) (f : F) (p : Pc) : (s.goto f p).bqR = s.bqR := rfl
@[simp] theorem goto_bqW (s : State F) (f : F) (p : Pc) : (s.goto f p).bqW = s.bqW := rfl
@[simp] theorem goto_pc (s : State F) (f : F) (p : Pc) :
    (s.goto f p).pc = Function.update s.pc f p := rfl

theorem waitsR_iff {p : Pc} : p.waitsR = true ↔ ∃ timed, p = .blockedR timed := by
  cases p <;> simp [Pc.waitsR]

theorem waitsW_iff {p : Pc} : p.waitsW = true ↔ ∃ timed, p = .blockedW timed := by
  cases p <;> simp [Pc.waitsW]

/-- The queues hold one node per waiting fibre, and of nobody else. -/
structure Queues (s : State F) : Prop where
  nodupR : s.bqR.Nodup
  nodupW : s.bqW.Nodup
  memR : ∀ f, f ∈ s.bqR ↔ (s.pc f).queuedR = true
  memW : ∀ f, f ∈ s.bqW ↔ (s.pc f).queuedW = true

/-- `next` is handed the read lock: it leaves `bqR` and is counted. -/
def GrantsR (s : State F) (next : F) (s' : State F) : Prop :=
  (s.pc next).waitsR = true ∧ s'.state = s.state + 1 ∧ s'.pc = Function.update s.pc next .grantedR ∧
    s'.bqW = s.bqW ∧ (∀ f, f ∈ s'.bqR ↔ f ∈ s.bqR ∧ f ≠ next) ∧ s'.bqR.Nodup

/-- `next` is handed the write lock. -/
def GrantsW (s : State F) (next : F) (s' : State F) : Prop :=
  (s.pc next).waitsW = true ∧ s'.state = s.state - 1 ∧ s'.pc = Function.update s.pc next .grantedW ∧
    s'.bqR = s.bqR ∧ (∀ f, f ∈ s'.bqW ↔ f ∈ s.bqW ∧ f ≠ next) ∧ s'.bqW.Nodup

theorem GrantsR.pc_cases {s s' : State F} {next : F} (h : GrantsR s next s') (g : F) :
    s'.pc g = s.pc g ∨ (g = next ∧ (s.pc g).waitsR = true ∧ s'.pc g = .grantedR) := by
  obtain ⟨hopen, -, hpc, -⟩ := h
  rcases eq_or_ne g next with rfl | hg
  · exact Or.inr ⟨rfl, hopen, by rw [hpc, Function.update_self]⟩
  · exact Or.inl (by rw [hpc, Function.update_of_ne hg])

theorem GrantsW.pc_cases {s s' : State F} {next : F} (h : GrantsW s next s') (g : F) :
    s'.pc g = s.pc g ∨ (g = next ∧ (s.pc g).waitsW = true ∧ s'.pc g = .grantedW) := by
  obtain ⟨hopen, -, hpc, -⟩ := h
  rcases eq_or_ne g next with rfl | hg
  · exact Or.inr ⟨rfl, hopen, by rw [hpc, Function.update_self]⟩
  · exact Or.inl (by rw [hpc, Function.update_of_ne hg])

theorem unblockR_cases {s : State F} (hq : Queues s) :
    (∃ next s', unblockR s = some s' ∧ GrantsR s next s') ∨
    (unblockR s = none ∧ ∀ f, (s.pc f).waitsR = false) := by
  have hall : ∀ f, (s.pc f).waitsR = true → f ∈ s.bqR := fun f hf =>
    (hq.memR f).mpr (by revert hf; cases s.pc f <;> simp [Pc.waitsR, Pc.queuedR])
  rcases unblock_cases hq.nodupR hall with ⟨next, q, h, hopen, hnd, hmem⟩ | ⟨h, hnone⟩
  · refine Or.inl ⟨next, { s.goto next .grantedR with state := s.state + 1, bqR := q }, ?_,
      hopen, rfl, rfl, rfl, hmem, hnd⟩
    rw [unblockR, h]
  · exact Or.inr ⟨by rw [unblockR, h], hnone⟩

theorem unblockW_cases {s : State F} (hq : Queues s) :
    (∃ next s', unblockW s = some s' ∧ GrantsW s next s') ∨
    (unblockW s = none ∧ ∀ f, (s.pc f).waitsW = false) := by
  have hall : ∀ f, (s.pc f).waitsW = true → f ∈ s.bqW := fun f hf =>
    (hq.memW f).mpr (by revert hf; cases s.pc f <;> simp [Pc.waitsW, Pc.queuedW])
  rcases unblock_cases hq.nodupW hall with ⟨next, q, h, hopen, hnd, hmem⟩ | ⟨h, hnone⟩
  · refine Or.inl ⟨next, { s.goto next .grantedW with state := s.state - 1, bqW := q }, ?_,
      hopen, rfl, rfl, rfl, hmem, hnd⟩
    rw [unblockW, h]
  · exact Or.inr ⟨by rw [unblockW, h], hnone⟩

/-- What the holder that leaves makes of `state`, before anybody is let in. -/
def State.left (s : State F) : ℤ := if 0 < s.state then s.state - 1 else s.state + 1

/-- The lock after a holder has left and before anybody is let in. -/
def State.leave (s : State F) (f : F) : State F := { s.goto f .out with state := s.left }

/-- Everything an action can do. -/
inductive Did (s : State F) : Action F → State F → Prop
  | refusedR {f : F} {args : Args} : s.pc f = .out → args.blocks = false →
      Did s (.acquireRead f args) s
  | refusedW {f : F} {args : Args} : s.pc f = .out → args.blocks = false →
      Did s (.acquireWrite f args) s
  | tookR {f : F} {args : Args} : s.pc f = .out → 0 ≤ s.state → s.bqW = [] →
      Did s (.acquireRead f args) { s.goto f .reader with state := s.state + 1 }
  | joinedR {f : F} {args : Args} : s.pc f = .out → s.state < 0 ∨ s.bqW ≠ [] → args.blocks = true →
      Did s (.acquireRead f args) { s.goto f (.blockedR args.timed) with bqR := s.bqR ++ [f] }
  | tookW {f : F} {args : Args} : s.pc f = .out → s.state = 0 →
      Did s (.acquireWrite f args) { s.goto f .writer with state := s.state - 1 }
  | joinedW {f : F} {args : Args} : s.pc f = .out → s.state ≠ 0 → args.blocks = true →
      Did s (.acquireWrite f args) { s.goto f (.blockedW args.timed) with bqW := s.bqW ++ [f] }
  | left {f : F} : s.pc f = .reader ∨ s.pc f = .writer →
      1 < s.state ∨ (∀ g, (s.pc g).waitsR = false ∧ (s.pc g).waitsW = false) →
      Did s (.release f) (s.leave f)
  | leftToR {f next : F} {s' : State F} : s.pc f = .reader ∨ s.pc f = .writer →
      (0 < s.state → ∀ g, (s.pc g).waitsW = false) → s.state ≤ 1 → GrantsR (s.leave f) next s' →
      Did s (.release f) s'
  | leftToW {f next : F} {s' : State F} : s.pc f = .reader ∨ s.pc f = .writer →
      (s.state ≤ 0 → ∀ g, (s.pc g).waitsR = false) → s.state ≤ 1 → GrantsW (s.leave f) next s' →
      Did s (.release f) s'
  | timedOutR {f : F} : s.pc f = .blockedR true → Did s (.timer f) (s.goto f .expiredR)
  | timedOutW {f : F} : s.pc f = .blockedW true → Did s (.timer f) (s.goto f .expiredW)
  | cancelledR {f : F} : s.pc f = .expiredR →
      Did s (.cancel f) { s.goto f .out with bqR := s.bqR.erase f }
  | cancelledW {f : F} : s.pc f = .expiredW →
      Did s (.cancel f) { s.goto f .out with bqW := s.bqW.erase f }
  | resumedR {f : F} : s.pc f = .grantedR → Did s (.resumption f) (s.goto f .cascade)
  | resumedW {f : F} : s.pc f = .grantedW → Did s (.resumption f) (s.goto f .writer)
  | settled {f : F} : s.pc f = .cascade → (∀ g, (s.pc g).waitsR = false) →
      Did s (.cascade f) (s.goto f .reader)
  | pulled {f next : F} {s' : State F} : s.pc f = .cascade → GrantsR (s.goto f .reader) next s' →
      Did s (.cascade f) s'

/-- A move of one fibre that neither enters nor leaves a queue. -/
theorem Queues.goto {s : State F} (hq : Queues s) {f : F} {p : Pc}
    (hR : p.queuedR = (s.pc f).queuedR) (hW : p.queuedW = (s.pc f).queuedW) :
    Queues (s.goto f p) := by
  refine ⟨hq.nodupR, hq.nodupW, fun g => ?_, fun g => ?_⟩
  · rcases eq_or_ne g f with rfl | hg
    · simp [hq.memR, hR]
    · simp [hq.memR, hg]
  · rcases eq_or_ne g f with rfl | hg
    · simp [hq.memW, hW]
    · simp [hq.memW, hg]

omit [DecidableEq F] in
theorem Queues.setState {s : State F} (hq : Queues s) (n : ℤ) : Queues { s with state := n } :=
  ⟨hq.nodupR, hq.nodupW, hq.memR, hq.memW⟩

theorem Queues.leave {s : State F} (hq : Queues s) {f : F}
    (hpc : s.pc f = .reader ∨ s.pc f = .writer) : Queues (s.leave f) := by
  refine (hq.goto (f := f) (p := .out) ?_ ?_).setState _ <;> rcases hpc with hpc | hpc <;>
    rw [hpc] <;> rfl

/-- A holder is not asleep, so its leaving puts nobody to sleep and wakes nobody. -/
theorem waits_leave {s : State F} {f : F} (hpc : s.pc f = .reader ∨ s.pc f = .writer) (g : F) :
    ((s.leave f).pc g).waitsR = (s.pc g).waitsR ∧ ((s.leave f).pc g).waitsW = (s.pc g).waitsW := by
  rcases eq_or_ne g f with rfl | hg
  · rcases hpc with hpc | hpc <;> rw [hpc] <;> simp [State.leave, Pc.waitsR, Pc.waitsW]
  · simp [State.leave, hg]

theorem GrantsR.queues {s s' : State F} {next : F} (hq : Queues s) (h : GrantsR s next s') :
    Queues s' := by
  obtain ⟨hopen, -, hpc, hW, hR, hnd⟩ := h
  have hmoved : ∀ g, g ≠ next → s'.pc g = s.pc g := fun g hg => by
    rw [hpc, Function.update_of_ne hg]
  have hnext : s'.pc next = .grantedR := by rw [hpc, Function.update_self]
  refine ⟨hnd, hW ▸ hq.nodupW, fun g => ?_, fun g => ?_⟩
  · rcases eq_or_ne g next with rfl | hg
    · simp [hR, hnext, Pc.queuedR]
    · simp [hR, hmoved g hg, hq.memR, hg]
  · rcases eq_or_ne g next with rfl | hg
    · rw [hW, hq.memW, hnext]
      revert hopen
      cases s.pc g <;> simp [Pc.waitsR, Pc.queuedW]
    · rw [hW, hmoved g hg, hq.memW]

theorem GrantsW.queues {s s' : State F} {next : F} (hq : Queues s) (h : GrantsW s next s') :
    Queues s' := by
  obtain ⟨hopen, -, hpc, hR, hW, hnd⟩ := h
  have hmoved : ∀ g, g ≠ next → s'.pc g = s.pc g := fun g hg => by
    rw [hpc, Function.update_of_ne hg]
  have hnext : s'.pc next = .grantedW := by rw [hpc, Function.update_self]
  refine ⟨hR ▸ hq.nodupR, hnd, fun g => ?_, fun g => ?_⟩
  · rcases eq_or_ne g next with rfl | hg
    · rw [hR, hq.memR, hnext]
      revert hopen
      cases s.pc g <;> simp [Pc.waitsW, Pc.queuedR]
    · rw [hR, hmoved g hg, hq.memR]
  · rcases eq_or_ne g next with rfl | hg
    · simp [hW, hnext, Pc.queuedW]
    · simp [hW, hmoved g hg, hq.memW, hg]

/-- The section of `release`, branch by branch. -/
theorem did_release {s : State F} (hq : Queues s) {f : F}
    (hpc : s.pc f = .reader ∨ s.pc f = .writer) :
    Did s (.release f) (releaseSection (s.goto f .out)) := by
  have hql : Queues (s.leave f) := hq.leave hpc
  have hwaits := waits_leave hpc
  by_cases hpos : 0 < s.state
  · have hleave : s.leave f = { s.goto f .out with state := s.state - 1 } := by
      rw [State.leave, State.left, if_pos hpos]
    rw [releaseSection, goto_state, if_pos hpos, ← hleave]
    by_cases hmore : 0 < s.state - 1
    · -- other readers stay
      have hstay : 0 < (s.leave f).state := by rw [hleave]; exact hmore
      simp only [if_pos hstay]
      exact .left hpc (Or.inl (by omega))
    · have hlast : ¬ 0 < (s.leave f).state := by rw [hleave]; exact hmore
      simp only [if_neg hlast]
      rcases unblockW_cases hql with ⟨next, s', h, hg⟩ | ⟨h, hW⟩
      · rw [h, Option.getD_some]
        exact .leftToW hpc (fun hle => absurd hpos (by omega)) (by omega) hg
      · rw [h, Option.getD_none]
        rcases unblockR_cases hql with ⟨next, s', h', hg⟩ | ⟨h', hR⟩
        · rw [h', Option.getD_some]
          exact .leftToR hpc (fun _ g => (hwaits g).2 ▸ hW g) (by omega) hg
        · rw [h', Option.getD_none]
          exact .left hpc (Or.inr fun g => ⟨(hwaits g).1 ▸ hR g, (hwaits g).2 ▸ hW g⟩)
  · have hleave : s.leave f = { s.goto f .out with state := s.state + 1 } := by
      rw [State.leave, State.left, if_neg hpos]
    rw [releaseSection, goto_state, if_neg hpos, ← hleave]
    rcases unblockR_cases hql with ⟨next, s', h, hg⟩ | ⟨h, hR⟩
    · simp only [h, Option.getD_some]
      exact .leftToR hpc (fun hp => absurd hp hpos) (by omega) hg
    · simp only [h, Option.getD_none]
      rcases unblockW_cases hql with ⟨next, s', h', hg⟩ | ⟨h', hW⟩
      · rw [h', Option.getD_some]
        exact .leftToW hpc (fun _ g => (hwaits g).1 ▸ hR g) (by omega) hg
      · rw [h', Option.getD_none]
        exact .left hpc (Or.inr fun g => ⟨(hwaits g).1 ▸ hR g, (hwaits g).2 ▸ hW g⟩)

/-- INVERSION: every step is one of the listed ones. -/
theorem step_did {s s' : State F} {a : Action F} (hq : Queues s) (h : step s a = some s') :
    Did s a s' := by
  cases a with
  | acquireRead f args =>
    simp only [step, Option.ite_none_right_eq_some, Option.some.injEq] at h
    obtain ⟨hpc, rfl⟩ := h
    rw [internalAR]
    split_ifs with hopen hblock
    · exact .tookR hpc hopen.1 hopen.2
    · refine .joinedR hpc ?_ hblock
      by_cases hneg : s.state < 0
      · exact Or.inl hneg
      · exact Or.inr fun hW => hopen ⟨by omega, hW⟩
    · exact .refusedR hpc (Bool.not_eq_true _ ▸ hblock)
  | acquireWrite f args =>
    simp only [step, Option.ite_none_right_eq_some, Option.some.injEq] at h
    obtain ⟨hpc, rfl⟩ := h
    rw [internalAW]
    split_ifs with hopen hblock
    · exact .tookW hpc hopen
    · exact .joinedW hpc hopen hblock
    · exact .refusedW hpc (Bool.not_eq_true _ ▸ hblock)
  | release f =>
    simp only [step, Option.ite_none_right_eq_some, Option.some.injEq] at h
    obtain ⟨hpc, rfl⟩ := h
    exact did_release hq hpc
  | timer f =>
    simp only [step] at h
    split at h <;> simp only [Option.some.injEq, reduceCtorEq] at h <;> subst h
    · exact .timedOutR ‹_›
    · exact .timedOutW ‹_›
  | cancel f =>
    simp only [step] at h
    split at h <;> simp only [Option.some.injEq, reduceCtorEq] at h <;> subst h
    · exact .cancelledR ‹_›
    · exact .cancelledW ‹_›
  | resumption f =>
    simp only [step] at h
    split at h <;> simp only [Option.some.injEq, reduceCtorEq] at h <;> subst h
    · exact .resumedR ‹_›
    · exact .resumedW ‹_›
  | cascade f =>
    simp only [step, Option.ite_none_right_eq_some, Option.some.injEq] at h
    obtain ⟨hpc, rfl⟩ := h
    have hq' : Queues (s.goto f .reader) := hq.goto (by rw [hpc]; rfl) (by rw [hpc]; rfl)
    rw [cascade]
    rcases unblockR_cases hq' with ⟨next, s', h, hg⟩ | ⟨h, hR⟩
    · rw [h, Option.getD_some]; exact .pulled hpc hg
    · rw [h, Option.getD_none]
      refine .settled hpc fun g => ?_
      rcases eq_or_ne g f with rfl | hne
      · rw [hpc]; rfl
      · have := hR g; rwa [goto_pc, Function.update_of_ne hne] at this

theorem queues_step {s s' : State F} {a : Action F} (hq : Queues s) (h : step s a = some s') :
    Queues s' := by
  cases step_did hq h with
  | refusedR => exact hq
  | refusedW => exact hq
  | tookR hpc => exact (hq.goto (by rw [hpc]; rfl) (by rw [hpc]; rfl)).setState _
  | tookW hpc => exact (hq.goto (by rw [hpc]; rfl) (by rw [hpc]; rfl)).setState _
  | @joinedR f args hpc =>
    have hnew : f ∉ s.bqR := by rw [hq.memR, hpc]; simp [Pc.queuedR]
    refine ⟨nodup_pushBack hq.nodupR hnew, hq.nodupW, fun g => ?_, fun g => ?_⟩
    · rcases eq_or_ne g f with rfl | hg
      · simp [Pc.queuedR]
      · simp [hq.memR, hg]
    · rcases eq_or_ne g f with rfl | hg
      · simp [hq.memW, hpc, Pc.queuedW]
      · simp [hq.memW, hg]
  | @joinedW f args hpc =>
    have hnew : f ∉ s.bqW := by rw [hq.memW, hpc]; simp [Pc.queuedW]
    refine ⟨hq.nodupR, nodup_pushBack hq.nodupW hnew, fun g => ?_, fun g => ?_⟩
    · rcases eq_or_ne g f with rfl | hg
      · simp [hq.memR, hpc, Pc.queuedR]
      · simp [hq.memR, hg]
    · rcases eq_or_ne g f with rfl | hg
      · simp [Pc.queuedW]
      · simp [hq.memW, hg]
  | left hpc => exact hq.leave hpc
  | leftToR hpc _ _ hg => exact hg.queues (hq.leave hpc)
  | leftToW hpc _ _ hg => exact hg.queues (hq.leave hpc)
  | timedOutR hpc => exact hq.goto (by rw [hpc]; rfl) (by rw [hpc]; rfl)
  | timedOutW hpc => exact hq.goto (by rw [hpc]; rfl) (by rw [hpc]; rfl)
  | @cancelledR f hpc =>
    refine ⟨hq.nodupR.erase f, hq.nodupW, fun g => ?_, fun g => ?_⟩
    · rcases eq_or_ne g f with rfl | hg
      · simp [hq.nodupR.mem_erase_iff, Pc.queuedR]
      · simp [hq.nodupR.mem_erase_iff, hq.memR, hg]
    · rcases eq_or_ne g f with rfl | hg
      · simp [hq.memW, hpc, Pc.queuedW]
      · simp [hq.memW, hg]
  | @cancelledW f hpc =>
    refine ⟨hq.nodupR, hq.nodupW.erase f, fun g => ?_, fun g => ?_⟩
    · rcases eq_or_ne g f with rfl | hg
      · simp [hq.memR, hpc, Pc.queuedR]
      · simp [hq.memR, hg]
    · rcases eq_or_ne g f with rfl | hg
      · simp [hq.nodupW.mem_erase_iff, Pc.queuedW]
      · simp [hq.nodupW.mem_erase_iff, hq.memW, hg]
  | resumedR hpc => exact hq.goto (by rw [hpc]; rfl) (by rw [hpc]; rfl)
  | resumedW hpc => exact hq.goto (by rw [hpc]; rfl) (by rw [hpc]; rfl)
  | settled hpc => exact hq.goto (by rw [hpc]; rfl) (by rw [hpc]; rfl)
  | pulled hpc hg => exact hg.queues (hq.goto (by rw [hpc]; rfl) (by rw [hpc]; rfl))

omit [DecidableEq F] in
theorem queues_start : Queues (start : State F) := by
  constructor <;> simp [start, Pc.queuedR, Pc.queuedW]

end Libfibre.LockedRWLock
