import Libfibre.Schemes.Tally
import Libfibre.IdleManager.Model
import Libfibre.Schemes.Threads

/-! What the locks, counters and lists of the idle manager count. A worker is the holder of a lock
    exactly between its acquisition and its release, `spinCounter` and `waitCounter` are head counts,
    and whoever is halted is represented once: in `waitingProcs`, by the `unblock` that has taken it
    from there, or by its semaphore. -/

namespace Libfibre.IdleManager
open Transition Tally

variable {n : ℕ} {P Fb : Type}

/-- The ready queue whose lock a worker holds. -/
def Pc.holds : Pc n Fb → Option (Fin (n + 1))
  | .search _ v .scan | .search _ v (.release _) => some v
  | _ => none

/-- A worker in `spinCounter`. -/
def Pc.spins : Pc n Fb → ℕ
  | .search (.spin _) _ _ | .unblockSpin | .decSpinning => 1
  | _ => 0

/-- A worker in `waitCounter` on its own account. -/
def Pc.waits : Pc n Fb → ℕ
  | .search .last _ _ | .decWaiting | .block => 1
  | _ => 0

def Pc.halts : Pc n Fb → ℕ
  | .halt => 1
  | _ => 0

/-- An `unblock` that has yet to take its processor out of `waitCounter`. -/
def Unblock.waits : Unblock n → ℕ
  | .decWaiting _ => 1
  | _ => 0

/-- An `unblock` that is going to wake a processor. -/
def Unblock.wakes (x : Fin (n + 1)) : Unblock n → ℕ
  | .decWaiting v | .wake v => if v = x then 1 else 0
  | _ => 0

/-- INVARIANT: the locks are held by those who are in the sections. -/
def Locked (s : State n P Fb) : Prop := ∀ v x, s.readyLock v = some x ↔ (s.pc x).holds = some v

/-- INVARIANT: the counters count. -/
structure Counts [Fintype P] (s : State n P Fb) : Prop where
  spin : s.spinCounter = tally Pc.spins s.pc
  wait : s.waitCounter = tally Pc.waits s.pc + s.waitingProcs.length + tally Unblock.waits s.unblock
  halt : ∀ x, s.waitingProcs.count x + tally (Unblock.wakes x) s.unblock + s.haltSem x
    = (s.pc x).halts

/-! ### Within a search nothing changes hands -/

/-- The places of a search and those it ends in count alike. -/
structure Alike (p q : Pc n Fb) : Prop where
  spins : q.spins = p.spins
  waits : q.waits = p.waits
  halts : q.halts = p.halts

theorem alike_stage (ctx : Search) (v u : Fin (n + 1)) (st st' : Stage Fb) :
    Alike (.search ctx v st) (.search ctx u st') := by
  cases ctx <;> exact ⟨rfl, rfl, rfl⟩

theorem alike_found (ctx : Search) (v : Fin (n + 1)) (st : Stage Fb) :
    Alike (.search ctx v st) (found ctx) := by
  cases ctx <;> exact ⟨rfl, rfl, rfl⟩

theorem alike_notFound (w v : Fin (n + 1)) (ctx : Search) (st : Stage Fb) :
    Alike (.search ctx v st) (notFound w ctx) := by
  cases ctx with
  | spin i => rw [notFound]; split_ifs <;> exact ⟨rfl, rfl, rfl⟩
  | full | yield _ | last => exact ⟨rfl, rfl, rfl⟩

theorem alike_advance (w v : Fin (n + 1)) (ctx : Search) (st : Stage Fb) :
    Alike (.search ctx v st) (advance w ctx v) := by
  rw [advance]
  split_ifs
  · exact alike_notFound w v ctx st
  · exact alike_stage ctx v (v + 1) st .probe

theorem holds_advance (w v : Fin (n + 1)) (ctx : Search) :
    (advance w ctx v : Pc n Fb).holds = none := by
  rw [advance]
  split_ifs
  · cases ctx with
    | spin i => rw [notFound]; split_ifs <;> rfl
    | full | yield _ | last => rfl
  · rfl

theorem holds_found (ctx : Search) : (found ctx : Pc n Fb).holds = none := by
  cases ctx <;> rfl

/-! ### The locks -/

section Locks
variable {s s' : State n P Fb} {w v : Fin (n + 1)} {p : Pc n Fb}

theorem Locked.goto (h : Locked s) (hpc : s'.pc = Function.update s.pc w p)
    (hlock : s'.readyLock = s.readyLock) (hholds : p.holds = (s.pc w).holds) : Locked s' := by
  intro u x
  rw [hlock, hpc, h u x, Threads.same_at (f := Pc.holds) hholds]

/-- A worker that has at most lock `v` takes or releases it. -/
theorem Locked.change {o : Option (Fin (n + 1))} (h : Locked s)
    (hpc : s'.pc = Function.update s.pc w p)
    (hlock : s'.readyLock = Function.update s.readyLock v o) (hmine : o = some w ↔ p.holds = some v)
    (hothers : ∀ x, x ≠ w → (o = some x ↔ s.readyLock v = some x))
    (hrest : ∀ u, u ≠ v → ((s.pc w).holds = some u ↔ p.holds = some u)) : Locked s' := by
  intro u x
  rw [hlock, hpc]
  rcases eq_or_ne u v with rfl | hu <;> rcases eq_or_ne x w with rfl | hx
  · rw [Function.update_self, Function.update_self]
    exact hmine
  · rw [Function.update_self, Function.update_of_ne hx, hothers x hx, h u x]
  · rw [Function.update_of_ne hu, Function.update_self, h u x]
    exact hrest u hu
  · rw [Function.update_of_ne hu, Function.update_of_ne hx, h u x]

theorem Locked.acquire (h : Locked s) (hfree : s.readyLock v = none) (hpc : (s.pc w).holds = none)
    (hpc' : s'.pc = Function.update s.pc w p) (hp : p.holds = some v)
    (hlock : s'.readyLock = Function.update s.readyLock v (some w)) : Locked s' := by
  refine h.change hpc' hlock (iff_of_true rfl hp) (fun x hx => ?_) fun u hu => ?_
  · rw [hfree]
    simp [hx.symm]
  · rw [hpc, hp]
    simp [hu.symm]

theorem Locked.release (h : Locked s) (hpc : (s.pc w).holds = some v)
    (hpc' : s'.pc = Function.update s.pc w p) (hp : p.holds = none)
    (hlock : s'.readyLock = Function.update s.readyLock v none) : Locked s' := by
  have hheld : s.readyLock v = some w := (h v w).mpr hpc
  refine h.change hpc' hlock (iff_of_false nofun (by rw [hp]; nofun)) (fun x hx => ?_) fun u hu => ?_
  · rw [hheld]
    simp [hx.symm]
  · rw [hpc, hp]
    simp [hu.symm]

end Locks

/-! ### The counters -/

section Counters
variable [Fintype P] {s s' : State n P Fb} {w : Fin (n + 1)} {p : Pc n Fb} {a : Agent n P}

/-- One worker moves: the counters change by its own weights. -/
theorem Counts.move (h : Counts s) (hpc : s'.pc = Function.update s.pc w p)
    (hunblock : s'.unblock = s.unblock)
    (hspin : s'.spinCounter + (s.pc w).spins = s.spinCounter + p.spins)
    (hwait : s'.waitCounter + (s.pc w).waits + s.waitingProcs.length
      = s.waitCounter + p.waits + s'.waitingProcs.length)
    (hhalt : ∀ x, s'.waitingProcs.count x + s'.haltSem x + (if x = w then (s.pc w).halts else 0)
      = s.waitingProcs.count x + s.haltSem x + if x = w then p.halts else 0) : Counts s' := by
  refine ⟨?_, ?_, fun x => ?_⟩
  · have ht := tally_update Pc.spins s.pc w p
    have hold := h.spin
    rw [hpc]; omega
  · have ht := tally_update Pc.waits s.pc w p
    have hold := h.wait
    rw [hpc, hunblock]; omega
  · have hold := h.halt x
    have hx := hhalt x
    rw [hpc, hunblock]
    rcases eq_or_ne x w with rfl | hne
    · rw [if_pos rfl, if_pos rfl] at hx
      rw [Function.update_self]; omega
    · rw [if_neg hne, if_neg hne] at hx
      rw [Function.update_of_ne hne]; omega

/-- A worker moves within a search, or does not touch the idle manager. -/
theorem Counts.goto (h : Counts s) (hpc : s'.pc = Function.update s.pc w p)
    (halike : Alike (s.pc w) p)
    (hrest : s'.unblock = s.unblock ∧ s'.spinCounter = s.spinCounter ∧
      s'.waitCounter = s.waitCounter ∧ s'.waitingProcs = s.waitingProcs ∧ s'.haltSem = s.haltSem) :
    Counts s' := by
  obtain ⟨h1, h2, h3, h4, h5⟩ := hrest
  refine h.move hpc h1 ?_ ?_ fun x => ?_
  · rw [h2, halike.spins]
  · rw [h3, h4, halike.waits]
  · rw [h4, h5, halike.halts]

/-- One `unblock` moves. -/
theorem Counts.unblock [DecidableEq P] {u : Unblock n} (h : Counts s) (hpc : s'.pc = s.pc)
    (hspin : s'.spinCounter = s.spinCounter)
    (hunblock : s'.unblock = Function.update s.unblock a u)
    (hwait : s'.waitCounter + (s.unblock a).waits + s.waitingProcs.length
      = s.waitCounter + u.waits + s'.waitingProcs.length)
    (hhalt : ∀ x, s'.waitingProcs.count x + s'.haltSem x + u.wakes x
      = s.waitingProcs.count x + s.haltSem x + (s.unblock a).wakes x) : Counts s' := by
  refine ⟨by rw [hspin, hpc]; exact h.spin, ?_, fun x => ?_⟩
  · have ht := tally_update Unblock.waits s.unblock a u
    have hold := h.wait
    rw [hpc, hunblock]; omega
  · have ht := tally_update (Unblock.wakes x) s.unblock a u
    have hold := h.halt x
    have hx := hhalt x
    rw [hpc, hunblock]; omega

end Counters

/-! ### Every step -/

section Steps
variable [DecidableEq P] {s s' : State n P Fb} {w v : Fin (n + 1)} {ctx : Search} {st : Stage Fb}

omit [DecidableEq P] in
theorem locked_searchNext (h : Locked s) (hpc : s.pc w = .search ctx v st)
    (hs : searchNext s w ctx v st = some s') : Locked s' := by
  cases st with
  | probe =>
    obtain rfl := Option.some.inj hs
    refine h.goto (w := w) rfl rfl ?_
    rw [hpc]
    split_ifs
    · rfl
    · exact holds_advance w v ctx
  | acquire =>
    rw [searchNext] at hs
    split at hs
    · rename_i hfree
      obtain rfl := Option.some.inj hs
      exact h.acquire hfree (by rw [hpc]; rfl) rfl rfl rfl
    · split_ifs at hs
      obtain rfl := Option.some.inj hs
      exact h.goto (w := w) rfl rfl (by rw [hpc]; exact holds_advance w v ctx)
  | scan =>
    obtain rfl := Option.some.inj hs
    exact h.goto (w := w) rfl rfl (by rw [hpc]; rfl)
  | release f =>
    obtain rfl := Option.some.inj hs
    refine h.release (w := w) (by rw [hpc]; rfl) rfl ?_ rfl
    split_ifs
    · exact holds_found ctx
    · exact holds_advance w v ctx

theorem locked_workerNext (h : Locked s) (hs : workerNext s w = some s') : Locked s' := by
  rw [workerNext] at hs
  cases hpc : s.pc w with
  | busy | postYield => rw [hpc] at hs; cases hs
  | search ctx v st =>
    rw [hpc] at hs
    exact locked_searchNext h hpc hs
  | halt =>
    simp only [hpc] at hs
    split_ifs at hs
    obtain rfl := Option.some.inj hs
    exact h.goto (w := w) rfl rfl (by rw [hpc]; rfl)
  | incSpinning | unblockSpin | decSpinning | incWaiting | decWaiting | block =>
    rw [hpc] at hs
    obtain rfl := Option.some.inj hs
    exact h.goto (w := w) rfl rfl (by rw [hpc]; rfl)

theorem unblockNext_pc {a : Agent n P} {contended : Bool}
    (hs : unblockNext s a contended = some s') :
    s'.pc = s.pc ∧ s'.readyLock = s.readyLock ∧ s'.queue = s.queue := by
  rw [unblockNext] at hs
  split at hs
  · cases hs
  · obtain rfl := Option.some.inj hs; exact ⟨rfl, rfl, rfl⟩
  · split_ifs at hs
    · obtain rfl := Option.some.inj hs; exact ⟨rfl, rfl, rfl⟩
    · split at hs <;> (obtain rfl := Option.some.inj hs; exact ⟨rfl, rfl, rfl⟩)
  · obtain rfl := Option.some.inj hs; exact ⟨rfl, rfl, rfl⟩
  · obtain rfl := Option.some.inj hs; exact ⟨rfl, rfl, rfl⟩

theorem locked_step {priority : Fb → Priority} {a : Action n P Fb} (h : Locked s)
    (hs : step priority s a = some s') : Locked s' := by
  cases a with
  | next w =>
    exact locked_workerNext h (step_cases hs).2
  | suspend w | yield w everywhere | postYield w v f =>
    obtain ⟨⟨-, hpc⟩, rfl⟩ := step_cases hs
    exact h.goto (w := w) rfl rfl (by rw [hpc]; rfl)
  | enqueueResume a v f =>
    obtain ⟨-, rfl⟩ := step_cases hs
    exact h
  | unblockNext a contended =>
    obtain ⟨hpc, hlock, -⟩ := unblockNext_pc hs
    intro u x
    rw [hpc, hlock]
    exact h u x

variable [Fintype P]

omit [DecidableEq P] in
theorem counts_searchNext (h : Counts s) (hpc : s.pc w = .search ctx v st)
    (hs : searchNext s w ctx v st = some s') : Counts s' := by
  have hrest : s.unblock = s.unblock ∧ s.spinCounter = s.spinCounter ∧
    s.waitCounter = s.waitCounter ∧ s.waitingProcs = s.waitingProcs ∧ s.haltSem = s.haltSem :=
    ⟨rfl, rfl, rfl, rfl, rfl⟩
  cases st with
  | probe =>
    obtain rfl := Option.some.inj hs
    refine h.goto (w := w) rfl ?_ hrest
    rw [hpc]
    split_ifs
    · exact alike_stage ctx v v .probe .acquire
    · exact alike_advance w v ctx .probe
  | acquire =>
    rw [searchNext] at hs
    split at hs
    · obtain rfl := Option.some.inj hs
      exact h.goto (w := w) rfl (by rw [hpc]; exact alike_stage ctx v v .acquire .scan) hrest
    · split_ifs at hs
      obtain rfl := Option.some.inj hs
      exact h.goto (w := w) rfl (by rw [hpc]; exact alike_advance w v ctx .acquire) hrest
  | scan =>
    obtain rfl := Option.some.inj hs
    exact h.goto (w := w) rfl (by rw [hpc]; exact alike_stage ctx v v .scan (.release _)) hrest
  | release f =>
    obtain rfl := Option.some.inj hs
    refine h.goto (w := w) rfl ?_ hrest
    rw [hpc]
    split_ifs
    · exact alike_found ctx v (.release f)
    · exact alike_advance w v ctx (.release f)

/-- `unblockSpin` starts an `unblock`: nothing is counted of it yet. -/
theorem Counts.startUnblock (h : Counts s) {a : Agent n P} (hdone : s.unblock a = .done) :
    Counts (s.gotoUnblock a .loop) :=
  h.unblock rfl rfl rfl (by rw [hdone]; rfl) fun x => by rw [hdone]; rfl

theorem counts_workerNext (h : Counts s) (hdone : s.unblock (.inl w) = .done)
    (hs : workerNext s w = some s') : Counts s' := by
  rw [workerNext] at hs
  have hspin : (s.pc w).spins ≤ s.spinCounter := by rw [h.spin]; exact le_tally Pc.spins s.pc w
  have hwait : (s.pc w).waits ≤ s.waitCounter := by
    have := le_tally Pc.waits s.pc w
    have := h.wait
    omega
  cases hpc : s.pc w with
  | busy | postYield => rw [hpc] at hs; cases hs
  | search ctx v st =>
    rw [hpc] at hs
    exact counts_searchNext h hpc hs
  | incSpinning =>
    rw [hpc] at hs
    obtain rfl := Option.some.inj hs
    exact h.move (w := w) rfl rfl (by rw [hpc]; rfl) (by rw [hpc]; rfl) fun x => by rw [hpc]; rfl
  | unblockSpin =>
    rw [hpc] at hs hspin
    obtain rfl := Option.some.inj hs
    have hmoved : Counts (State.goto { s with spinCounter := s.spinCounter - 1 } w .busy) :=
      h.move (w := w) rfl rfl (by rw [hpc]; exact Nat.sub_add_cancel hspin) (by rw [hpc]; rfl)
        fun x => by rw [hpc]; rfl
    by_cases hzero : s.spinCounter - 1 = 0
    · rw [if_pos hzero]
      exact hmoved.startUnblock hdone
    · rw [if_neg hzero]
      exact hmoved
  | decSpinning =>
    rw [hpc] at hs hspin
    obtain rfl := Option.some.inj hs
    exact h.move (w := w) rfl rfl (by rw [hpc]; exact Nat.sub_add_cancel hspin) (by rw [hpc]; rfl)
      fun x => by rw [hpc]; rfl
  | incWaiting =>
    rw [hpc] at hs
    obtain rfl := Option.some.inj hs
    refine h.move (w := w) rfl rfl (by rw [hpc]; rfl) ?_ fun x => by rw [hpc]; rfl
    simp [State.goto, hpc, Pc.waits]
  | decWaiting =>
    rw [hpc] at hs hwait
    obtain rfl := Option.some.inj hs
    refine h.move (w := w) rfl rfl (by rw [hpc]; rfl) ?_ fun x => by rw [hpc]; rfl
    rw [hpc]
    exact congrArg (· + _) (Nat.sub_add_cancel hwait)
  | block =>
    rw [hpc] at hs
    obtain rfl := Option.some.inj hs
    refine h.move (w := w) rfl rfl (by rw [hpc]; rfl) ?_ fun x => ?_
    · simp only [State.goto, hpc, Pc.waits, List.length_cons]
      omega
    · rcases eq_or_ne x w with rfl | hx
      · simp only [State.goto, hpc, Pc.halts, List.count_cons_self, if_true]
        omega
      · simp [State.goto, hx, Ne.symm hx]
  | halt =>
    simp only [hpc] at hs
    split_ifs at hs with hsem
    obtain rfl := Option.some.inj hs
    refine h.move (w := w) rfl rfl (by rw [hpc]; rfl) (by rw [hpc]; rfl) fun x => ?_
    rcases eq_or_ne x w with rfl | hx
    · simp only [State.goto, hpc, Pc.halts, Function.update_self, if_true]
      omega
    · simp [State.goto, hx]

theorem counts_unblockNext {a : Agent n P} {contended : Bool} (h : Counts s)
    (hs : unblockNext s a contended = some s') : Counts s' := by
  rw [unblockNext] at hs
  cases hu : s.unblock a with
  | done => rw [hu] at hs; cases hs
  | loop =>
    rw [hu] at hs
    obtain rfl := Option.some.inj hs
    refine h.unblock rfl rfl rfl ?_ fun x => ?_
    · rw [hu]; split_ifs <;> rfl
    · rw [hu]; split_ifs <;> rfl
  | tryAcquire =>
    simp only [hu] at hs
    split_ifs at hs
    · obtain rfl := Option.some.inj hs
      exact h.unblock rfl rfl rfl (by rw [hu]; rfl) fun x => by rw [hu]; rfl
    · split at hs
      · obtain rfl := Option.some.inj hs
        exact h.unblock rfl rfl rfl (by rw [hu]; rfl) fun x => by rw [hu]; rfl
      · rename_i v rest hlist
        obtain rfl := Option.some.inj hs
        refine h.unblock rfl rfl rfl ?_ fun x => ?_
        · simp only [State.gotoUnblock, hu, hlist, Unblock.waits, List.length_cons]
          omega
        · simp only [State.gotoUnblock, hu, hlist, Unblock.wakes, List.count_cons, beq_iff_eq]
          omega
  | decWaiting v =>
    rw [hu] at hs
    obtain rfl := Option.some.inj hs
    refine h.unblock rfl rfl rfl ?_ fun x => by rw [hu]; rfl
    have hone := le_tally Unblock.waits s.unblock a
    have hwait := h.wait
    rw [hu] at hone
    simp only [State.gotoUnblock, hu, Unblock.waits] at hone ⊢
    omega
  | wake v =>
    rw [hu] at hs
    obtain rfl := Option.some.inj hs
    refine h.unblock rfl rfl rfl (by rw [hu]; rfl) fun x => ?_
    rcases eq_or_ne v x with rfl | hx
    · simp only [State.gotoUnblock, hu, Unblock.wakes, Function.update_self, if_true]
      omega
    · simp [State.gotoUnblock, hu, Unblock.wakes, hx, Ne.symm hx]

theorem counts_step {priority : Fb → Priority} {a : Action n P Fb} (h : Counts s)
    (hs : step priority s a = some s') : Counts s' := by
  cases a with
  | next w =>
    obtain ⟨hdone, hs⟩ := step_cases hs
    exact counts_workerNext h hdone hs
  | suspend w | yield w everywhere | postYield w v f =>
    obtain ⟨⟨-, hpc⟩, rfl⟩ := step_cases hs
    exact h.goto (w := w) rfl (by rw [hpc]; exact ⟨rfl, rfl, rfl⟩) ⟨rfl, rfl, rfl, rfl, rfl⟩
  | enqueueResume a v f =>
    obtain ⟨⟨hdone, -⟩, rfl⟩ := step_cases hs
    exact h.unblock rfl rfl rfl (by rw [hdone]; rfl) fun x => by rw [hdone]; rfl
  | unblockNext a contended => exact counts_unblockNext h hs

end Steps

/-! ### Runs -/

section Runs
variable [DecidableEq P] {priority : Fb → Priority} {s : State n P Fb}

omit [DecidableEq P] in
theorem locked_start (h : Start s) : Locked s := by
  intro v x
  rw [h.readyLock v]
  rcases h.pc x with hpc | hpc <;> simp [hpc, Pc.holds]

omit [DecidableEq P] in
theorem counts_start [Fintype P] (h : Start s) : Counts s := by
  have hpc : ∀ weight : Pc n Fb → ℕ, weight .incSpinning = 0 → weight .busy = 0 →
      ∀ x, weight (s.pc x) = 0 := fun weight h1 h2 x => by
    rcases h.pc x with hpc | hpc <;> rw [hpc] <;> assumption
  refine ⟨?_, ?_, fun x => ?_⟩
  · rw [h.spinCounter, tally_eq_zero (hpc Pc.spins rfl rfl)]
  · rw [h.waitCounter, h.waitingProcs, tally_eq_zero (hpc Pc.waits rfl rfl),
      tally_eq_zero fun a => by rw [h.unblock a]; rfl]
    rfl
  · rw [h.waitingProcs, h.haltSem, tally_eq_zero fun a => by rw [h.unblock a]; rfl,
      hpc Pc.halts rfl rfl x]
    rfl

end Runs

end Libfibre.IdleManager
