import Libfibre.LockedRWLock.Accounting

/-! Lost wake-ups of `LockedRWLock`. A writer whose timer has won keeps its node in `bqW` until it
    gets the internal lock again. In that window `release` cannot wake it, and an arriving reader
    still sees `bqW` non-empty: it goes to sleep on an open lock, and the cancelled writer leaves
    without looking at `bqR`. That is the only way to lose a wake-up: in the runs in which no reader
    blocks on an open lock, an open lock has no sleeper. -/

namespace Libfibre.LockedRWLock
open Transition BlockingQueue

variable {F : Type} [DecidableEq F]

/-- No operation in progress and no granted wake-up pending: everybody is outside, holds the lock, or
    sleeps in a queue with its race open. -/
def Pc.quiet : Pc → Bool
  | .out | .reader | .writer | .blockedR _ | .blockedW _ => true
  | _ => false

/-- Asleep in `bqR` or `bqW`. -/
def Pc.asleep (p : Pc) : Bool := p.waitsR || p.waitsW

/-- An open, quiet lock has no sleeper. -/
def NoLostWakeUp (s : State F) : Prop :=
  s.state = 0 → (∀ f, (s.pc f).quiet = true) → ∀ f, (s.pc f).asleep = false

/-- A reader that is about to block finds the lock open, with only nodes in `bqW` in its way. -/
def blocksOnOpen (s : State F) : Action F → Bool
  | .acquireRead _ args => args.blocks && s.state == 0 && !s.bqW.isEmpty
  | _ => false

/-- The lock is shut whenever somebody sleeps. -/
def ShutForSleepers (s : State F) : Prop := s.state = 0 → ∀ f, (s.pc f).asleep = false

/-- A step that leaves the counter and puts nobody to sleep. -/
theorem ShutForSleepers.move {s s' : State F} {f : F} {p : Pc} (hi : ShutForSleepers s)
    (hstate : s'.state = s.state) (hpc : s'.pc = Function.update s.pc f p)
    (hp : p.asleep = false) : ShutForSleepers s' := by
  intro h0 g
  rcases eq_or_ne g f with rfl | hg
  · rw [hpc, Function.update_self]; exact hp
  · rw [hpc, Function.update_of_ne hg]; exact hi (hstate ▸ h0) g

theorem asleep_leave {s : State F} {f : F} (hpc : s.pc f = .reader ∨ s.pc f = .writer) (g : F) :
    ((s.leave f).pc g).asleep = (s.pc g).asleep := by
  obtain ⟨hR, hW⟩ := waits_leave hpc g
  rw [Pc.asleep, Pc.asleep, hR, hW]

/-- The lock is not open right after it has been handed on. -/
theorem GrantsR.state_ne {s s' : State F} {next : F} (h : GrantsR s next s') (h0 : 0 ≤ s.state) :
    s'.state ≠ 0 := by
  obtain ⟨-, hstate, -⟩ := h
  omega

theorem GrantsW.state_ne {s s' : State F} {next : F} (h : GrantsW s next s') (h0 : s.state = 0) :
    s'.state ≠ 0 := by
  obtain ⟨-, hstate, -⟩ := h
  omega

/-- STEP: only a reader that blocks on an open lock breaks the rule. -/
theorem shut_step [Fintype F] {s s' : State F} {a : Action F} (hq : Queues s) (ha : Accounts s)
    (hi : ShutForSleepers s) (hok : blocksOnOpen s a = false) (h : step s a = some s') :
    ShutForSleepers s' := by
  cases step_did hq h with
  | refusedR => exact hi
  | refusedW => exact hi
  | tookR _ hst =>
    intro h0
    have : s.state + 1 = 0 := h0
    omega
  | @joinedR f args hpc hshut hblock =>
    intro h0
    have hopen : s.state = 0 := h0
    have hnodes : s.bqW ≠ [] := hshut.resolve_left (by omega)
    rw [blocksOnOpen, hblock, hopen, Bool.true_and, beq_self_eq_true, Bool.true_and,
      Bool.not_eq_eq_eq_not, Bool.not_false, List.isEmpty_iff] at hok
    exact absurd hok hnodes
  | tookW _ hst =>
    intro h0
    have : s.state - 1 = 0 := h0
    omega
  | joinedW _ hst => exact fun h0 => absurd h0 hst
  | @left f hpc hleft =>
    intro h0 g
    rw [asleep_leave hpc]
    rcases hleft with hmore | hnone
    · have : s.left = 0 := h0
      rw [State.left, if_pos (by omega)] at this
      omega
    · rw [Pc.asleep, (hnone g).1, (hnone g).2]; rfl
  | leftToR hpc _ hst hg =>
    have h0 : 0 ≤ s.left := Int.le_of_eq (left_eq_zero ha hpc hst).symm
    exact fun hopen => absurd hopen (hg.state_ne h0)
  | leftToW hpc _ hst hg => exact fun hopen => absurd hopen (hg.state_ne (left_eq_zero ha hpc hst))
  | timedOutR => exact hi.move rfl rfl rfl
  | timedOutW => exact hi.move rfl rfl rfl
  | cancelledR => exact hi.move rfl rfl rfl
  | cancelledW => exact hi.move rfl rfl rfl
  | resumedR => exact hi.move rfl rfl rfl
  | resumedW => exact hi.move rfl rfl rfl
  | settled => exact hi.move rfl rfl rfl
  | @pulled f next s' hpc hg =>
    have h0 : 0 ≤ s.state := by
      rw [(accounts_reader ha (f := f) (by rw [hpc]; rfl)).1]
      exact Int.natCast_nonneg _
    exact fun hopen => absurd hopen (hg.state_ne h0)

/-- RUN: while no reader blocks on an open lock, the lock is shut whenever somebody sleeps. -/
theorem shut_run [Fintype F] {as : List (Action F)} {s : State F}
    (h : Run (system F) (Avoids blocksOnOpen) as s) : ShutForSleepers s := by
  refine (h.inv (I := fun s => (Queues s ∧ Accounts s) ∧ ShutForSleepers s) ?_ ?_).2
  · rintro _ rfl
    exact ⟨⟨queues_start, accounts_start⟩, fun _ _ => rfl⟩
  · rintro s a s' ⟨⟨hq, ha⟩, hi⟩ hok hs
    exact ⟨⟨queues_step hq hs, accounts_step hq ha hs⟩, shut_step hq ha hi hok hs⟩

/-- CORRECT: no wake-up is lost in the runs in which no reader blocks on an open lock. -/
theorem no_lost_wakeUp_of_run [Fintype F] {as : List (Action F)} {s : State F}
    (h : Run (system F) (Avoids blocksOnOpen) as s) : NoLostWakeUp s :=
  fun h0 _ => shut_run h h0

/-- Writer `w`, whose timer has won, is still queued when the lock is handed to reader `late` behind it. -/
def timedOut (r w late : F) : List (Action F) :=
  [.acquireRead r (.wait true), .acquireWrite w (.timeout true), .acquireRead late (.timeout true),
    .timer w, .release r]

/-- The reader has the lock and leaves, and the writer removes its node. -/
def allLeft (w late : F) : List (Action F) :=
  [.resumption late, .cascade late, .release late, .cancel w]

theorem no_lost_wakeUp_of_run_timeout : ∃ s : State (Fin 3),
    Run (system (Fin 3)) (Avoids blocksOnOpen) (timedOut 0 1 2 ++ allLeft 1 2) s ∧ s.state = 0 ∧
      (∀ f, (s.pc f).quiet = true) ∧ s.bqR = [] ∧ s.bqW = [] ∧ NoLostWakeUp s := by
  obtain ⟨s, hrun, hp⟩ := run_of_execAvoiding (system (Fin 3)) blocksOnOpen start
    (timedOut 0 1 2 ++ allLeft 1 2)
    (fun s => decide (s.state = 0 ∧ (∀ f, (s.pc f).quiet = true) ∧ s.bqR = [] ∧ s.bqW = []))
    rfl (by decide)
  obtain ⟨hstate, hquiet, hreaders, hwriters⟩ := of_decide_eq_true hp
  exact ⟨s, hrun, hstate, hquiet, hreaders, hwriters, no_lost_wakeUp_of_run hrun⟩

/-- A reader holds the lock, a writer waits with a timeout, its timer wins, the reader leaves, another
    reader comes, and only then the writer gets to remove its node. -/
def lostReader (r w late : F) : List (Action F) :=
  [.acquireRead r (.wait true), .acquireWrite w (.timeout true), .timer w, .release r,
    .acquireRead late (.wait true), .cancel w]

/-- WRONG: the late reader sleeps on an open lock with nobody left to wake it. -/
theorem lost_wakeUp : ¬ ∀ s, Reach (system (Fin 3)) s → NoLostWakeUp s := by
  intro hall
  obtain ⟨s, hr, hp⟩ := reach_of_exec (system (Fin 3)) start (lostReader 0 1 2)
    (fun s => s.state == 0 && decide (∀ f, (s.pc f).quiet = true) && (s.pc 2).asleep)
    rfl (by decide)
  simp only [Bool.and_eq_true, beq_iff_eq, decide_eq_true_eq] at hp
  obtain ⟨⟨h0, hquiet⟩, hasleep⟩ := hp
  rw [hall s hr h0 hquiet 2] at hasleep
  cases hasleep

end Libfibre.LockedRWLock
