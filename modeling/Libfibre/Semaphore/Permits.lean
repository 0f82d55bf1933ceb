import Libfibre.Semaphore.LockedSemaphore

/-! The permits of a `LockedSemaphore`. A permit is in the counter, with a fibre that has been handed
    it and has not run yet, or has been returned as success; `tryV` hands out permits of its own
    making. Nothing else happens to permits at any point of any call, and none lies in the counter
    while a waiter could take it. -/

namespace Libfibre.LockedSemaphore
open Transition BlockingQueue Tally

/-- The semaphore with what its calls have returned so far: `P` (all variants), `V` and `tryV`. -/
structure Sys (F : Type) where
  sem : State F
  ps : List (F × SemaphoreResult)
  vs : List (Option F)
  tryVs : List (Option F)

inductive Action (F : Type) where
  | P (f : F) (args : Args)
  | tryP (f : F)
  | unlockP (f : F)
  | V (f : F)
  | tryV (f : F)
  | timer (f : F)
  | cancel (f : F)
  | resumption (f : F)

variable {F : Type} [DecidableEq F]

/-- The section of a `P` has run; it may have returned. -/
def Sys.called (s : Sys F) (f : F) : State F × Option SemaphoreResult → Sys F
  | (sem, none) => { s with sem := sem }
  | (sem, some r) => { s with sem := sem, ps := s.ps ++ [(f, r)] }

/-- A blocked `P` returns. -/
def Sys.returned (s : Sys F) (f : F) (r : SemaphoreResult) (sem : State F) : Sys F :=
  { s with sem := sem, ps := s.ps ++ [(f, r)] }

/-- One step; a call starts from `out`. -/
def step (binary : Bool) (s : Sys F) : Action F → Option (Sys F)
  | .P f args => if s.sem.pc f = .out then some (s.called f (internalP s.sem f args)) else none
  | .tryP f => if s.sem.pc f = .out then some (s.called f (LockedSemaphore.tryP s.sem f)) else none
  | .unlockP f =>
    if s.sem.pc f = .out then some (s.called f (LockedSemaphore.unlockP s.sem f)) else none
  | .V f =>
    if s.sem.pc f = .out then
      some { s with sem := (LockedSemaphore.V binary s.sem).1
                    vs := s.vs ++ [(LockedSemaphore.V binary s.sem).2] }
    else none
  | .tryV f =>
    if s.sem.pc f = .out then
      some { s with sem := (LockedSemaphore.tryV s.sem).1
                    tryVs := s.tryVs ++ [(LockedSemaphore.tryV s.sem).2] }
    else none
  | .timer f => (LockedSemaphore.timer s.sem f).map fun sem => { s with sem := sem }
  | .cancel f => (LockedSemaphore.cancel s.sem f).map (s.returned f .timeout)
  | .resumption f => (LockedSemaphore.resumption s.sem f).map (s.returned f .success)

/-- A semaphore with initial value `c`. -/
def system (F : Type) [DecidableEq F] (binary : Bool) (c : ℤ) : System (Sys F) (Action F) where
  init s := s = { sem := LockedSemaphore.start c, ps := [], vs := [], tryVs := [] }
  step := step binary

/-- The calls of `P`, `tryP` and `unlockP` that have returned success. -/
def Sys.successes (s : Sys F) : ℕ := s.ps.countP fun p => p.2.ok

/-- The permits handed out by `tryV`. -/
def Sys.handed (s : Sys F) : ℕ := s.tryVs.countP fun next => next.isSome

/-- The fibre whose own step an action is. -/
def Action.fibre : Action F → F
  | .P f _ | .tryP f | .unlockP f | .V f | .tryV f | .timer f | .cancel f | .resumption f => f

/-- The action begins a call of `P`, `tryP` or `unlockP`. -/
def Action.begins : Action F → Bool
  | .P _ _ | .tryP _ | .unlockP _ => true
  | _ => false

/-- Everything an action can do. -/
inductive Did (binary : Bool) (s : Sys F) : Action F → Sys F → Prop
  | took {a : Action F} : a.begins = true → s.sem.pc a.fibre = .out → 1 ≤ s.sem.counter →
      Did binary s a (s.returned a.fibre .wasOpen (s.sem.setCounter (s.sem.counter - 1)))
  | joined {a : Action F} {timed : Bool} : a.begins = true → s.sem.pc a.fibre = .out →
      s.sem.counter < 1 →
      Did binary s a { s with sem := s.sem.join a.fibre timed }
  | refused {a : Action F} : a.begins = true → s.sem.pc a.fibre = .out →
      Did binary s a (s.returned a.fibre .timeout s.sem)
  | passed {f next : F} {sem : State F} : s.sem.pc f = .out → Grants s.sem next sem →
      Did binary s (.V f) { s with sem := sem, vs := s.vs ++ [some next] }
  | put {f : F} : s.sem.pc f = .out → (∀ g, (s.sem.pc g).waits = false) →
      Did binary s (.V f)
        { s with sem := s.sem.setCounter (if binary then 1 else s.sem.counter + 1)
                 vs := s.vs ++ [none] }
  | made {f next : F} {sem : State F} : s.sem.pc f = .out → Grants s.sem next sem →
      Did binary s (.tryV f) { s with sem := sem, tryVs := s.tryVs ++ [some next] }
  | nobody {f : F} : s.sem.pc f = .out →
      Did binary s (.tryV f) { s with tryVs := s.tryVs ++ [none] }
  | timedOut {f : F} : s.sem.pc f = .blocked true →
      Did binary s (.timer f) { s with sem := s.sem.goto f .expired }
  | cancelled {f : F} : s.sem.pc f = .expired →
      Did binary s (.cancel f) (s.returned f .timeout (s.sem.withdraw f))
  | resumed {f : F} : s.sem.pc f = .granted →
      Did binary s (.resumption f) (s.returned f .success (s.sem.goto f .out))

/-- All variants of `P` are one section with different arguments. -/
theorem did_internalP {binary : Bool} {s : Sys F} {a : Action F} (hbegins : a.begins = true)
    (hpc : s.sem.pc a.fibre = .out) (args : Args) :
    Did binary s a (s.called a.fibre (internalP s.sem a.fibre args)) := by
  rcases internalP_cases s.sem a.fibre args with ⟨hc, -, h⟩ | ⟨-, -, h⟩ | ⟨hc, h⟩ <;> rw [h]
  · exact .joined hbegins hpc hc
  · exact .refused hbegins hpc
  · exact .took hbegins hpc hc

/-- INVERSION: every step is one of the listed ones. -/
theorem step_did {binary : Bool} {s s' : Sys F} {a : Action F} (hq : Queues s.sem)
    (h : step binary s a = some s') : Did binary s a s' := by
  cases a with
  | P f args =>
    simp only [step, Option.ite_none_right_eq_some, Option.some.injEq] at h
    obtain ⟨hpc, rfl⟩ := h
    exact did_internalP rfl hpc args
  | tryP f =>
    simp only [step, Option.ite_none_right_eq_some, Option.some.injEq] at h
    obtain ⟨hpc, rfl⟩ := h
    exact did_internalP rfl hpc (.wait false)
  | unlockP f =>
    simp only [step, Option.ite_none_right_eq_some, Option.some.injEq] at h
    obtain ⟨hpc, rfl⟩ := h
    exact did_internalP rfl hpc (.wait true)
  | V f =>
    simp only [step, Option.ite_none_right_eq_some, Option.some.injEq] at h
    obtain ⟨hpc, rfl⟩ := h
    rcases V_cases binary hq with ⟨next, sem, h, hg⟩ | ⟨h, hnone⟩ <;> rw [h]
    · exact .passed hpc hg
    · exact .put hpc hnone
  | tryV f =>
    simp only [step, Option.ite_none_right_eq_some, Option.some.injEq] at h
    obtain ⟨hpc, rfl⟩ := h
    rcases tryV_cases hq with ⟨next, sem, h, hg⟩ | ⟨h, -⟩ <;> rw [h]
    · exact .made hpc hg
    · exact .nobody hpc
  | timer f =>
    obtain ⟨sem, hsem, rfl⟩ := Option.map_eq_some_iff.mp h
    obtain ⟨hpc, rfl⟩ := timer_some hsem
    exact .timedOut hpc
  | cancel f =>
    obtain ⟨sem, hsem, rfl⟩ := Option.map_eq_some_iff.mp h
    obtain ⟨hpc, rfl⟩ := cancel_some hsem
    exact .cancelled hpc
  | resumption f =>
    obtain ⟨sem, hsem, rfl⟩ := Option.map_eq_some_iff.mp h
    obtain ⟨hpc, rfl⟩ := resumption_some hsem
    exact .resumed hpc

theorem queues_step {binary : Bool} {s s' : Sys F} {a : Action F} (hq : Queues s.sem)
    (h : step binary s a = some s') : Queues s'.sem := by
  cases step_did hq h with
  | took => exact hq.setCounter _
  | joined _ hpc => exact hq.joined hpc _
  | refused => exact hq
  | passed _ hg => exact hg.queues hq
  | put => exact hq.setCounter _
  | made _ hg => exact hg.queues hq
  | nobody => exact hq
  | timedOut hpc => exact hq.goto (by rw [hpc]; rfl)
  | cancelled => exact hq.cancelled _
  | resumed hpc => exact hq.goto (by rw [hpc]; rfl)

/-! ### Conservation -/

omit [DecidableEq F] in
@[simp] theorem returned_sem (s : Sys F) (f : F) (r : SemaphoreResult) (sem : State F) :
    (s.returned f r sem).sem = sem := rfl
omit [DecidableEq F] in
@[simp] theorem returned_vs (s : Sys F) (f : F) (r : SemaphoreResult) (sem : State F) :
    (s.returned f r sem).vs = s.vs := rfl
omit [DecidableEq F] in
@[simp] theorem returned_handed (s : Sys F) (f : F) (r : SemaphoreResult) (sem : State F) :
    (s.returned f r sem).handed = s.handed := rfl

omit [DecidableEq F] in
theorem successes_returned (s : Sys F) (f : F) (r : SemaphoreResult) (sem : State F) :
    (s.returned f r sem).successes = s.successes + r.ok.toNat := by
  rw [Sys.successes, Sys.returned, List.countP_append, List.countP_singleton]
  cases r.ok <;> rfl

/-- INVARIANT: every permit is accounted for. -/
def Conserves [Fintype F] (c : ℤ) (s : Sys F) : Prop :=
  c + s.vs.length = s.sem.counter + (s.successes + s.sem.grants) - s.handed

/-- INVARIANT: no permit is left lying where a waiter could take it. -/
def NoIdlePermit (s : Sys F) : Prop := 0 < s.sem.counter → ∀ f, (s.sem.pc f).waits = false

omit [DecidableEq F] in
/-- The account changes with what a step adds to each of its items. -/
theorem Conserves.add [Fintype F] {c : ℤ} {s s' : Sys F} (h : Conserves c s) {v g r t : ℤ}
    (hv : (s'.vs.length : ℤ) = s.vs.length + v) (hr : (s'.successes : ℤ) = s.successes + r)
    (hg : (s'.sem.grants : ℤ) = s.sem.grants + g) (ht : (s'.handed : ℤ) = s.handed + t)
    (hc : s'.sem.counter = s.sem.counter + v + t - r - g) : Conserves c s' := by
  rw [Conserves] at h ⊢
  omega

/-- STEP: whatever section runs, every permit is accounted for afterwards. -/
theorem conserves_step [Fintype F] {c : ℤ} {s s' : Sys F} {a : Action F} (hq : Queues s.sem)
    (hi : Conserves c s) (h : step false s a = some s') : Conserves c s' := by
  cases step_did hq h with
  | took =>
    refine hi.add (v := 0) (g := 0) (r := 1) (t := 0) ?_ ?_ (Int.add_zero _).symm ?_ ?_
    · simp
    · rw [successes_returned]; rfl
    · simp
    · simp only [returned_sem, setCounter_counter]; omega
  | joined _ hpc =>
    refine hi.add (v := 0) (g := 0) (r := 0) (t := 0) ?_ ?_ ?_ ?_ ?_
    · simp
    · exact (Int.add_zero _).symm
    · rw [(counts_joined hpc _).1, Int.add_zero]
    · exact (Int.add_zero _).symm
    · simp
  | refused =>
    refine hi.add (v := 0) (g := 0) (r := 0) (t := 0) ?_ ?_ (Int.add_zero _).symm ?_ ?_
    · simp
    · rw [successes_returned]; rfl
    · simp
    · simp
  | passed _ hg =>
    refine hi.add (v := 1) (g := 1) (r := 0) (t := 0) ?_ (Int.add_zero _).symm ?_
      (Int.add_zero _).symm ?_
    · simp
    · exact congrArg _ hg.counts.1
    · simp only [hg.counter]; omega
  | put =>
    refine hi.add (v := 1) (g := 0) (r := 0) (t := 0) ?_ (Int.add_zero _).symm
      (Int.add_zero _).symm (Int.add_zero _).symm ?_
    · simp
    · simp
  | made _ hg =>
    refine hi.add (v := 0) (g := 1) (r := 0) (t := 1) (Int.add_zero _).symm (Int.add_zero _).symm
      ?_ ?_ ?_
    · exact congrArg _ hg.counts.1
    · simp [Sys.handed, List.countP_append]
    · simp only [hg.counter]; omega
  | nobody =>
    refine hi.add (v := 0) (g := 0) (r := 0) (t := 0) (Int.add_zero _).symm (Int.add_zero _).symm
      (Int.add_zero _).symm ?_ ?_
    · simp [Sys.handed, List.countP_append]
    · simp
  | timedOut hpc =>
    refine hi.add (v := 0) (g := 0) (r := 0) (t := 0) (Int.add_zero _).symm (Int.add_zero _).symm
      ?_ (Int.add_zero _).symm ?_
    · rw [(counts_timer hpc).1, Int.add_zero]
    · simp
  | cancelled hpc =>
    refine hi.add (v := 0) (g := 0) (r := 0) (t := 0) ?_ ?_ ?_ ?_ ?_
    · simp
    · rw [successes_returned]; rfl
    · simp only [returned_sem]; rw [(counts_cancel hpc).1, Int.add_zero]
    · simp
    · simp
  | resumed hpc =>
    refine hi.add (v := 0) (g := -1) (r := 1) (t := 0) ?_ ?_ ?_ ?_ ?_
    · simp
    · rw [successes_returned]; rfl
    · simp only [returned_sem]; have := (counts_resumption hpc).1; omega
    · simp
    · simp

theorem noIdlePermit_step {s s' : Sys F} {a : Action F} (hq : Queues s.sem)
    (hi : NoIdlePermit s) (h : step false s a = some s') : NoIdlePermit s' := by
  -- a step that leaves the counter and puts nobody to sleep
  have hmove : ∀ {f : F} {p : Pc} {t : Sys F}, t.sem.counter = s.sem.counter →
      t.sem.pc = Function.update s.sem.pc f p → p.waits = false → NoIdlePermit t := by
    intro f p t hcounter hpc hp hpos g
    rcases eq_or_ne g f with rfl | hg
    · rw [hpc, Function.update_self]; exact hp
    · rw [hpc, Function.update_of_ne hg]; exact hi (hcounter ▸ hpos) g
  cases step_did hq h with
  | took _ _ hc => exact fun _ => hi (Int.lt_of_lt_of_le Int.zero_lt_one hc)
  | joined _ _ hc => exact fun hpos => absurd hpos (by simp; omega)
  | refused => exact hi
  | passed _ hg => exact hmove hg.counter hg.pc rfl
  | put _ hnone => exact fun _ => hnone
  | made _ hg => exact hmove hg.counter hg.pc rfl
  | nobody => exact hi
  | timedOut => exact hmove rfl rfl rfl
  | cancelled => exact hmove rfl rfl rfl
  | resumed => exact hmove rfl rfl rfl

theorem permits_reach [Fintype F] {c : ℤ} {s : Sys F} (h : Reach (system F false c) s) :
    Queues s.sem ∧ Conserves c s ∧ NoIdlePermit s := by
  refine h.inv (I := fun s => Queues s.sem ∧ Conserves c s ∧ NoIdlePermit s) ?_ ?_
  · rintro _ rfl
    refine ⟨queues_start c, ?_, fun _ _ => rfl⟩
    have hnone : (LockedSemaphore.start c : State F).grants = 0 := tally_eq_zero fun _ => rfl
    show c + (0 : ℤ) = c + (0 + ((LockedSemaphore.start c : State F).grants : ℤ)) - 0
    rw [hnone]
    omega
  · rintro s a s' ⟨hq, hc, hn⟩ hs
    exact ⟨queues_step hq hs, conserves_step hq hc hs, noIdlePermit_step hq hn hs⟩

/-! ### Calls that time out -/

/-- Neither the counter nor any success, returned or granted, has changed. -/
def Unconsumed (s s' : Sys F) : Prop :=
  s'.sem.counter = s.sem.counter ∧ s'.successes = s.successes ∧
    ∀ g, (s'.sem.pc g).isGranted = (s.sem.pc g).isGranted

theorem unconsumed_move {s s' : Sys F} {f : F} {p : Pc} (hcounter : s'.sem.counter = s.sem.counter)
    (hps : s'.successes = s.successes) (hpc : s'.sem.pc = Function.update s.sem.pc f p)
    (hp : p.isGranted = (s.sem.pc f).isGranted) : Unconsumed s s' := by
  refine ⟨hcounter, hps, fun g => ?_⟩
  rcases eq_or_ne g f with rfl | hg
  · rw [hpc, Function.update_self]; exact hp
  · rw [hpc, Function.update_of_ne hg]

omit [DecidableEq F] in
theorem unconsumed_refused (s : Sys F) (f : F) : Unconsumed s (s.returned f .timeout s.sem) :=
  ⟨rfl, successes_returned s f .timeout s.sem, fun _ => rfl⟩

theorem unconsumed_cancelled {s : Sys F} {f : F} (hpc : s.sem.pc f = .expired) :
    Unconsumed s (s.returned f .timeout (s.sem.withdraw f)) :=
  unconsumed_move rfl (successes_returned s f .timeout _) rfl (by rw [hpc]; rfl)

/-- A fibre's own step that ends with its node in the queue consumes nothing. -/
theorem unconsumed_queued {s s' : Sys F} {a : Action F} (hq : Queues s.sem)
    (h : step false s a = some s') (hend : (s'.sem.pc a.fibre).queued = true) :
    Unconsumed s s' := by
  cases step_did hq h with
  | took _ hpc => rw [returned_sem, setCounter_pc, hpc] at hend; cases hend
  | joined _ hpc => exact unconsumed_move rfl rfl rfl (by rw [hpc]; rfl)
  | refused => exact unconsumed_refused s a.fibre
  | @passed f next sem hpc hg => rw [Action.fibre, hg.out hpc] at hend; cases hend
  | put hpc => rw [Action.fibre, setCounter_pc, hpc] at hend; cases hend
  | @made f next sem hpc hg => rw [Action.fibre, hg.out hpc] at hend; cases hend
  | nobody hpc => rw [Action.fibre, hpc] at hend; cases hend
  | timedOut hpc => exact unconsumed_move rfl rfl rfl (by rw [hpc]; rfl)
  | cancelled hpc => exact unconsumed_cancelled hpc
  | resumed => simp [Action.fibre, Pc.queued] at hend

/-- A node gets into the queue only when its fibre begins a call. -/
theorem queued_back {s s' : Sys F} {a : Action F} {f : F} (hq : Queues s.sem)
    (h : step false s a = some s') (hbegin : a.begins = true → a.fibre ≠ f)
    (hend : (s'.sem.pc f).queued = true) : (s.sem.pc f).queued = true := by
  have hmove : ∀ {g : F} {p : Pc} {t : State F}, t.pc = Function.update s.sem.pc g p →
      (f = g → p.queued = true → (s.sem.pc g).queued = true) →
      (t.pc f).queued = true → (s.sem.pc f).queued = true := by
    intro g p t hpc hg hp
    rw [hpc] at hp
    rcases eq_or_ne f g with rfl | hne
    · rw [Function.update_self] at hp; exact hg rfl hp
    · rwa [Function.update_of_ne hne] at hp
  cases step_did hq h with
  | took => exact hend
  | joined hb => exact hmove rfl (fun hfg _ => absurd hfg.symm (hbegin hb)) hend
  | refused => exact hend
  | passed _ hg => exact hmove hg.pc (fun _ hp => by cases hp) hend
  | put => exact hend
  | made _ hg => exact hmove hg.pc (fun _ hp => by cases hp) hend
  | nobody => exact hend
  | timedOut hpc => exact hmove rfl (fun _ _ => by rw [hpc]; rfl) hend
  | cancelled => exact hmove rfl (fun _ hp => by cases hp) hend
  | resumed => exact hmove rfl (fun _ hp => by cases hp) hend

omit [DecidableEq F] in
/-- A call that has returned at once has returned what is now the last result. -/
theorem returned_ne {s : Sys F} {f : F} {r r' : SemaphoreResult} {sem : State F}
    (h : (s.returned f r sem).ps = s.ps ++ [(f, r')]) : r = r' := by
  have hlast := List.append_cancel_left h
  simp only [List.cons.injEq, Prod.mk.injEq, true_and, and_true] at hlast
  exact hlast

/-- CORRECT: in every interleaving, for every initial value, permits are conserved and none is left
    lying where a waiter could take it; and no step of a call that times out touches the counter or
    any success. -/
theorem conserves_permits (F : Type) [DecidableEq F] [Fintype F] (c : ℕ) :
    (∀ s, Reach (system F false c) s →
      (c + s.vs.length : ℤ) = s.sem.counter + (s.successes + s.sem.grants) - s.handed ∧
      (0 < s.sem.counter → ∀ f, (s.sem.pc f).waits = false)) ∧
    (∀ s₀ s₁ call, Reach (system F false c) s₀ → call.begins = true →
      step false s₀ call = some s₁ →
      -- refused at once
      (s₁.ps = s₀.ps ++ [(call.fibre, .timeout)] → Unconsumed s₀ s₁) ∧
      -- or queued, timed out and cancelled, whatever the others do in between
      (∀ mid s₂ s₃, exec (system F false c) s₁ mid = some s₂ →
        (∀ b ∈ mid, b.begins = true → b.fibre ≠ call.fibre) →
        step false s₂ (.cancel call.fibre) = some s₃ →
        Unconsumed s₀ s₁ ∧ Unconsumed s₂ s₃ ∧
        ∀ front b back t t', mid = front ++ b :: back →
          exec (system F false c) s₁ front = some t → step false t b = some t' →
          b.fibre = call.fibre → Unconsumed t t')) := by
  refine ⟨fun s hr => (permits_reach hr).2, fun s₀ s₁ call hr hcall h₀ => ⟨fun hlast => ?_, ?_⟩⟩
  · cases step_did (permits_reach hr).1 h₀ with
    | took => exact absurd (returned_ne hlast) (by decide)
    | joined => simp at hlast
    | refused => exact unconsumed_refused s₀ call.fibre
    | _ => cases hcall
  · intro mid s₂ s₃ hmid hown h₃
    have hq₁ : Queues s₁.sem := (permits_reach (hr.step h₀)).1
    have hq₂ : Queues s₂.sem := (permits_reach ((hr.step h₀).exec hmid)).1
    obtain ⟨sem, hsem, rfl⟩ := Option.map_eq_some_iff.mp h₃
    obtain ⟨hexpired, rfl⟩ := cancel_some hsem
    -- from its end backwards, the fibre's node is in the queue all through the call
    have halong : Along (system F false c) (fun s => (s.sem.pc call.fibre).queued = true) s₁ mid :=
      Along.of_last (I := fun s => Queues s.sem) (fun _ _ _ hq h => queues_step hq h)
        (fun b hb _ _ hq h hend => queued_back hq h (hown b hb) hend) hq₁ hmid
        (by rw [hexpired]; rfl)
    refine ⟨unconsumed_queued (permits_reach hr).1 h₀ halong.here, unconsumed_cancelled hexpired, ?_⟩
    refine halong.own_steps (I := fun s => Queues s.sem) (fun _ _ _ hq h => queues_step hq h) ?_ hq₁
    intro s a s' hq hfibre h hend
    refine unconsumed_queued hq h ?_
    rwa [hfibre]

/-- A permit goes past a waiter whose timer has won and is yet to leave. -/
theorem conserves_permits_timeout : ∃ s : Sys (Fin 3), Reach (system (Fin 3) false (1 : ℕ)) s ∧
    s.vs = [some 2] ∧ s.sem.pc 1 = .expired ∧
    (1 + s.vs.length : ℤ) = s.sem.counter + (s.successes + s.sem.grants) - s.handed := by
  obtain ⟨s, hr, hp⟩ := reach_of_exec (system (Fin 3) false (1 : ℕ))
    { sem := LockedSemaphore.start 1, ps := [], vs := [], tryVs := [] }
    [.P 0 (.wait true), .P 1 (.timeout true), .P 2 (.wait true), .timer 1, .V 0]
    (fun s => s.vs == [some 2] && s.sem.pc 1 == .expired) rfl (by decide)
  simp only [Bool.and_eq_true, beq_iff_eq] at hp
  exact ⟨s, hr, hp.1, hp.2, ((conserves_permits (Fin 3) 1).1 s hr).1⟩

end Libfibre.LockedSemaphore
