import Libfibre.Semaphore.LockedSemaphore

/-! `FredBenaphore` (`BlockingSync.h`) over `LockedSemaphore`, both with `Binary = false`: a `Benaphore`
    counter that is decremented before anybody blocks, and an inner semaphore, initially 0, for those
    that find it used up. The benaphore update, the inner operation and the compensating `ben.V()`
    after a timeout are separate steps.

        P(timeout) ──▶ ben.P() ──▶ sem.P(timeout) ──▶ ben.V() ──▶ SemaphoreTimeout
                         │ > 0        │ true
                         ▼            ▼
                      WasOpen      Success

    The inner semaphore is owed a permit by every `V` that found the counter negative. If the waiter
    such a `V` has counted on times out, the permit stays in the inner semaphore; the compensation
    then puts it back a second time, unless the counter shows that somebody else waits for it. -/

namespace Libfibre.FredBenaphore
open Transition BlockingQueue Tally LockedSemaphore

/-- Where a fibre is in the benaphore. The timeout of a blocked `P` is kept with what
    `timeout > Runtime::Timer::now()` says; there is none in a plain `P`. -/
inductive Pc where
  | out
  | tryP (c : ℤ)
  | semP (timeout : Option Bool)
  | inSem (timed : Bool)
  | undo
  | semV
  deriving DecidableEq

structure State (F : Type) where
  ben : ℤ
  sem : LockedSemaphore.State F
  pc : F → Pc
  /-- What the calls of `P`, `tryP` and `P(timeout)` have returned. -/
  ps : List (F × SemaphoreResult)
  /-- How many calls of `V` there have been. -/
  vs : ℕ

inductive Action (F : Type) where
  | P (f : F)
  | PTimeout (f : F) (ahead : Bool)
  | tryP (f : F)
  | V (f : F)
  | next (f : F)
  | timer (f : F)
  | resumption (f : F)

variable {F : Type} [DecidableEq F]

def State.goto (s : State F) (f : F) (p : Pc) : State F :=
  { s with pc := Function.update s.pc f p }

/-- The call of `f` returns. -/
def State.report (s : State F) (f : F) (r : SemaphoreResult) : State F :=
  { s.goto f .out with ps := s.ps ++ [(f, r)] }

/-- `ben.P()` and what follows at once. -/
def benP (s : State F) (f : F) (timeout : Option Bool) : State F :=
  let s' := { s with ben := s.ben - 1 }
  if 0 < s.ben then s'.report f .wasOpen else s'.goto f (.semP timeout)

/-- The compare-and-swap of `ben.tryP()`, with the counter loaded before. -/
def swap (s : State F) (f : F) (c : ℤ) : State F :=
  if 1 ≤ c ∧ s.ben = c then State.report { s with ben := c - 1 } f .wasOpen
  else s.report f .timeout

/-- The inner `P` has returned: a plain call passes the result on. -/
def inner (s : State F) (f : F) (timed : Bool) (r : SemaphoreResult) : State F :=
  if timed then
    if r.ok then s.report f .success else s.goto f .undo
  else s.report f r

/-- The section of the inner `P`. -/
def semP (s : State F) (f : F) (timeout : Option Bool) : State F :=
  match internalP s.sem f (timeout.elim (.wait true) .timeout) with
  | (sem, none) => State.goto { s with sem := sem } f (.inSem timeout.isSome)
  | (sem, some r) => inner { s with sem := sem } f timeout.isSome r

/-- `ben.V()` of a `V`, and what follows at once. -/
def benV (s : State F) (f : F) : State F :=
  let s' := { s with ben := s.ben + 1, vs := s.vs + 1 }
  if 0 < s.ben + 1 then s' else s'.goto f .semV

/-- One step; a call starts from `out`, and `next` goes on with the call a fibre is in. -/
def step (s : State F) : Action F → Option (State F)
  | .P f => if s.pc f = .out then some (benP s f none) else none
  | .PTimeout f ahead => if s.pc f = .out then some (benP s f (some ahead)) else none
  | .tryP f => if s.pc f = .out then some (s.goto f (.tryP s.ben)) else none
  | .V f => if s.pc f = .out then some (benV s f) else none
  | .next f =>
    match s.pc f with
    | .out => none
    | .tryP c => some (swap s f c)
    | .semP timeout => some (semP s f timeout)
    | .inSem timed =>
      (cancel s.sem f).map fun sem => inner { s with sem := sem } f timed .timeout
    | .undo => some (State.report { s with ben := s.ben + 1 } f .timeout)
    | .semV => some (State.goto { s with sem := (LockedSemaphore.V false s.sem).1 } f .out)
  | .timer f => (LockedSemaphore.timer s.sem f).map fun sem => { s with sem := sem }
  | .resumption f =>
    match s.pc f with
    | .inSem timed =>
      (LockedSemaphore.resumption s.sem f).map fun sem => inner { s with sem := sem } f timed .success
    | _ => none

def start (c : ℤ) : State F :=
  { ben := c, sem := LockedSemaphore.start 0, pc := fun _ => .out, ps := [], vs := 0 }

/-- A benaphore with initial value `c`. -/
def system (F : Type) [DecidableEq F] (c : ℤ) : System (State F) (Action F) where
  init s := s = start c
  step := step

/-- The calls that have reported success. -/
def State.successes (s : State F) : ℕ := s.ps.countP fun p => p.2.ok

/-- A compensating `ben.V()` finds the counter not negative: nobody waits for what it puts back. -/
def undoesOpen (s : State F) : Action F → Bool
  | .next f => s.pc f == .undo && decide (0 ≤ s.ben)
  | _ => false

/-! ### What a step does -/

/-- The place in the inner semaphore goes with the place in the benaphore. -/
def Linked : Pc → LockedSemaphore.Pc → Prop
  | .inSem timed, p => p = .granted ∨ p = .blocked timed ∨ (p = .expired ∧ timed = true)
  | _, p => p = .out

/-- `f` is about to block or to undo its decrement. -/
def Pc.pending : Pc → Bool
  | .semP _ | .undo => true
  | _ => false

/-- `f` has found the counter negative in a `V` and is about to do the inner `V`. -/
def Pc.owing : Pc → Bool
  | .semV => true
  | _ => false

/-- Everything an action can do, to a state whose places are linked. -/
inductive Did (s : State F) : Action F → State F → Prop
  | opened {a : Action F} {f : F} : s.pc f = .out → 0 < s.ben →
      Did s a (State.report { s with ben := s.ben - 1 } f .wasOpen)
  | shut {a : Action F} {f : F} {timeout : Option Bool} : s.pc f = .out → s.ben ≤ 0 →
      Did s a (State.goto { s with ben := s.ben - 1 } f (.semP timeout))
  | loaded {a : Action F} {f : F} {c : ℤ} : s.pc f = .out → Did s a (s.goto f (.tryP c))
  | swapped {a : Action F} {f : F} {c : ℤ} : s.pc f = .tryP c → 1 ≤ s.ben →
      Did s a (State.report { s with ben := s.ben - 1 } f .wasOpen)
  | swapFailed {a : Action F} {f : F} {c : ℤ} : s.pc f = .tryP c → Did s a (s.report f .timeout)
  | put {a : Action F} : 0 ≤ s.ben → Did s a { s with ben := s.ben + 1, vs := s.vs + 1 }
  | owed {a : Action F} {f : F} : s.pc f = .out → s.ben < 0 →
      Did s a (State.goto { s with ben := s.ben + 1, vs := s.vs + 1 } f .semV)
  | joined {a : Action F} {f : F} {timeout : Option Bool} : s.pc f = .semP timeout →
      s.sem.counter < 1 → Did s a
        (State.goto { s with sem := s.sem.join f timeout.isSome } f (.inSem timeout.isSome))
  | took {a : Action F} {f : F} {timeout : Option Bool} {r : SemaphoreResult} :
      s.pc f = .semP timeout → 1 ≤ s.sem.counter → r.ok = true →
      Did s a (State.report { s with sem := s.sem.setCounter (s.sem.counter - 1) } f r)
  | late {a : Action F} {f : F} {timeout : Option Bool} : s.pc f = .semP timeout →
      Did s a (s.goto f .undo)
  | timedOut {a : Action F} {f : F} : s.sem.pc f = .blocked true →
      Did s a { s with sem := s.sem.goto f .expired }
  | cancelled {a : Action F} {f : F} : s.sem.pc f = .expired →
      s.pc f = .inSem true → Did s a (State.goto { s with sem := s.sem.withdraw f } f .undo)
  | resumed {a : Action F} {f : F} {timed : Bool} : s.sem.pc f = .granted → s.pc f = .inSem timed →
      Did s a (State.report { s with sem := s.sem.goto f .out } f .success)
  | undone {a : Action F} {f : F} : a = .next f → s.pc f = .undo →
      Did s a (State.report { s with ben := s.ben + 1 } f .timeout)
  | passed {a : Action F} {f next : F} {sem : LockedSemaphore.State F} : s.pc f = .semV →
      Grants s.sem next sem → Did s a (State.goto { s with sem := sem } f .out)
  | kept {a : Action F} {f : F} : s.pc f = .semV →
      Did s a (State.goto { s with sem := s.sem.setCounter (s.sem.counter + 1) } f .out)

theorem did_benP {s : State F} {a : Action F} {f : F} (hpc : s.pc f = .out)
    (timeout : Option Bool) : Did s a (benP s f timeout) := by
  rw [benP]
  split_ifs with h
  · exact .opened hpc h
  · exact .shut hpc (by omega)

theorem did_semP {s : State F} {a : Action F} {f : F} {timeout : Option Bool}
    (hpc : s.pc f = .semP timeout) : Did s a (semP s f timeout) := by
  rw [semP]
  rcases internalP_cases s.sem f (timeout.elim (.wait true) .timeout) with
    ⟨hc, -, h⟩ | ⟨-, hb, h⟩ | ⟨hc, h⟩ <;> rw [h]
  · have htimed : (timeout.elim (Args.wait true) Args.timeout).timed = timeout.isSome := by
      cases timeout <;> rfl
    rw [htimed]
    exact .joined hpc hc
  · cases timeout with
    | none => cases hb
    | some ahead => exact .late hpc
  · cases timeout with
    | none => exact .took hpc hc rfl
    | some ahead => exact .took hpc hc rfl

/-- INVERSION: every step is one of the listed ones. -/
theorem step_did {s s' : State F} {a : Action F} (hq : Queues s.sem)
    (hl : ∀ f, Linked (s.pc f) (s.sem.pc f)) (h : step s a = some s') : Did s a s' := by
  cases a with
  | P f =>
    simp only [step, Option.ite_none_right_eq_some, Option.some.injEq] at h
    obtain ⟨hpc, rfl⟩ := h
    exact did_benP hpc none
  | PTimeout f ahead =>
    simp only [step, Option.ite_none_right_eq_some, Option.some.injEq] at h
    obtain ⟨hpc, rfl⟩ := h
    exact did_benP hpc (some ahead)
  | tryP f =>
    simp only [step, Option.ite_none_right_eq_some, Option.some.injEq] at h
    obtain ⟨hpc, rfl⟩ := h
    exact .loaded hpc
  | V f =>
    simp only [step, Option.ite_none_right_eq_some, Option.some.injEq] at h
    obtain ⟨hpc, rfl⟩ := h
    rw [benV]
    split_ifs with hopen
    · exact .put (by omega)
    · exact .owed hpc (by omega)
  | next f =>
    have hlf := hl f
    cases hpc : s.pc f with
    | out => simp [step, hpc] at h
    | tryP c =>
      simp only [step, hpc, Option.some.injEq] at h
      subst h
      rw [swap]
      split_ifs with hc
      · obtain ⟨h1, rfl⟩ := hc
        exact .swapped hpc h1
      · exact .swapFailed hpc
    | semP timeout =>
      simp only [step, hpc, Option.some.injEq] at h
      subst h
      exact did_semP hpc
    | inSem timed =>
      simp only [step, hpc] at h
      obtain ⟨sem, hsem, rfl⟩ := Option.map_eq_some_iff.mp h
      obtain ⟨hexpired, rfl⟩ := cancel_some hsem
      simp only [hpc, Linked, hexpired, reduceCtorEq, true_and, false_or] at hlf
      subst hlf
      exact .cancelled hexpired hpc
    | undo =>
      simp only [step, hpc, Option.some.injEq] at h
      subst h
      exact .undone rfl hpc
    | semV =>
      simp only [step, hpc, Option.some.injEq] at h
      subst h
      rcases V_cases false hq with ⟨next, sem, h, hg⟩ | ⟨h, -⟩ <;> rw [h]
      · exact .passed hpc hg
      · exact .kept hpc
  | timer f =>
    obtain ⟨sem, hsem, rfl⟩ := Option.map_eq_some_iff.mp h
    obtain ⟨hpc, rfl⟩ := timer_some hsem
    exact .timedOut hpc
  | resumption f =>
    cases hpc : s.pc f with
    | inSem timed =>
      simp only [step, hpc] at h
      obtain ⟨sem, hsem, rfl⟩ := Option.map_eq_some_iff.mp h
      obtain ⟨hgranted, rfl⟩ := resumption_some hsem
      have hinner : inner { s with sem := s.sem.goto f .out } f timed .success
          = State.report { s with sem := s.sem.goto f .out } f .success := by
        cases timed <;> rfl
      rw [hinner]
      exact .resumed hgranted hpc
    | _ => simp [step, hpc] at h

/-! ### The two counters -/

theorem linked_update {pc : F → Pc} {ps : F → LockedSemaphore.Pc}
    (hl : ∀ f, Linked (pc f) (ps f)) {f : F} {p : Pc} {q : LockedSemaphore.Pc} (hf : Linked p q)
    (g : F) : Linked (Function.update pc f p g) (Function.update ps f q g) := by
  rcases eq_or_ne g f with rfl | hg
  · rwa [Function.update_self, Function.update_self]
  · rw [Function.update_of_ne hg, Function.update_of_ne hg]; exact hl g

theorem linked_goto {s : State F} (hl : ∀ f, Linked (s.pc f) (s.sem.pc f)) {f : F} {p : Pc}
    (hf : Linked p (s.sem.pc f)) (g : F) : Linked (Function.update s.pc f p g) (s.sem.pc g) := by
  have h := linked_update (f := f) hl hf g
  rwa [Function.update_eq_self] at h

omit [DecidableEq F] in
theorem out_of_linked {s : State F} (hl : ∀ f, Linked (s.pc f) (s.sem.pc f)) {f : F}
    (hpc : ∀ timed, s.pc f ≠ .inSem timed) : s.sem.pc f = .out := by
  have h := hl f
  cases hp : s.pc f with
  | inSem timed => exact absurd hp (hpc timed)
  | _ => rw [hp] at h; exact h

/-- STEP: a fibre's places in the benaphore and in the inner semaphore stay linked. -/
theorem linked_step {s s' : State F} {a : Action F} (hq : Queues s.sem)
    (hl : ∀ f, Linked (s.pc f) (s.sem.pc f)) (h : step s a = some s') :
    ∀ f, Linked (s'.pc f) (s'.sem.pc f) := by
  cases step_did hq hl h with
  | opened hpc => exact linked_goto hl (out_of_linked hl fun _ => by rw [hpc]; simp)
  | shut hpc => exact linked_goto hl (out_of_linked hl fun _ => by rw [hpc]; simp)
  | loaded hpc => exact linked_goto hl (out_of_linked hl fun _ => by rw [hpc]; simp)
  | swapped hpc => exact linked_goto hl (out_of_linked hl fun _ => by rw [hpc]; simp)
  | swapFailed hpc => exact linked_goto hl (out_of_linked hl fun _ => by rw [hpc]; simp)
  | put => exact hl
  | owed hpc => exact linked_goto hl (out_of_linked hl fun _ => by rw [hpc]; simp)
  | joined => exact linked_update hl (Or.inr (Or.inl rfl))
  | took hpc => exact linked_goto hl (out_of_linked hl fun _ => by rw [hpc]; simp)
  | late hpc => exact linked_goto hl (out_of_linked hl fun _ => by rw [hpc]; simp)
  | @timedOut f hpc =>
    intro g
    have hf := hl f
    have h : Linked (s.pc f) .expired := by
      cases hp : s.pc f with
      | inSem timed => rw [hp, hpc] at hf; simpa [Linked] using hf
      | _ => rw [hp, hpc] at hf; cases hf
    have h' := linked_update (f := f) hl h g
    rwa [Function.update_eq_self] at h'
  | cancelled => exact linked_update hl rfl
  | resumed => exact linked_update hl rfl
  | undone _ hpc => exact linked_goto hl (out_of_linked hl fun _ => by rw [hpc]; simp)
  | @passed f next sem hpc hg =>
    have hnext := hl next
    obtain ⟨timed, hw⟩ := waits_iff.mp hg.waits
    have hlinked : Linked (s.pc next) .granted := by
      cases hp : s.pc next with
      | inSem timed => exact Or.inl rfl
      | _ => rw [hp, hw] at hnext; cases hnext
    have h1 : ∀ g, Linked (s.pc g) (sem.pc g) := fun g => by
      have h' := linked_update (f := next) hl hlinked g
      rwa [Function.update_eq_self, ← hg.pc] at h'
    have hout : sem.pc f = .out :=
      hg.out (out_of_linked hl fun _ => by rw [hpc]; simp)
    exact linked_goto (s := { s with sem := sem }) h1 hout
  | kept hpc => exact linked_goto hl (out_of_linked hl fun _ => by rw [hpc]; simp)

theorem queues_step {s s' : State F} {a : Action F} (hq : Queues s.sem)
    (hl : ∀ f, Linked (s.pc f) (s.sem.pc f)) (h : step s a = some s') : Queues s'.sem := by
  cases step_did hq hl h with
  | joined hpc => exact hq.joined (out_of_linked hl fun _ => by rw [hpc]; simp) _
  | took => exact hq.setCounter _
  | timedOut hpc => exact hq.goto (by rw [hpc]; rfl)
  | cancelled => exact hq.cancelled _
  | resumed hpc => exact hq.goto (by rw [hpc]; rfl)
  | passed _ hg => exact hg.queues hq
  | kept => exact hq.setCounter _
  | _ => exact hq

section Counting
variable [Fintype F]

/-- The calls that have decremented the counter and have been neither granted nor compensated. -/
def State.pending (s : State F) : ℕ := tally (fun p => p.pending.toNat) s.pc + s.sem.queueds

/-- The calls of `V` that owe the inner semaphore a permit. -/
def State.owing (s : State F) : ℕ := tally (fun p => p.owing.toNat) s.pc

/-- INVARIANT: the counter has been decremented by the successful and by the pending calls, and the
    pending ones are those that some `V` has provided for and those that the counter shows. -/
structure Balanced (c : ℤ) (s : State F) : Prop where
  counter : 0 ≤ s.sem.counter
  ben : s.ben = c + s.vs - (s.successes + s.sem.grants) - s.pending
  pending : (s.pending : ℤ) = s.owing + s.sem.counter + max 0 (-s.ben)

omit [Fintype F] in
@[simp] theorem goto_ben (s : State F) (f : F) (p : Pc) : (s.goto f p).ben = s.ben := rfl
omit [Fintype F] in
@[simp] theorem goto_sem (s : State F) (f : F) (p : Pc) : (s.goto f p).sem = s.sem := rfl
omit [Fintype F] in
@[simp] theorem goto_vs (s : State F) (f : F) (p : Pc) : (s.goto f p).vs = s.vs := rfl
omit [Fintype F] in
@[simp] theorem goto_successes (s : State F) (f : F) (p : Pc) :
    (s.goto f p).successes = s.successes := rfl
omit [Fintype F] in
@[simp] theorem report_ben (s : State F) (f : F) (r : SemaphoreResult) :
    (s.report f r).ben = s.ben := rfl
omit [Fintype F] in
@[simp] theorem report_sem (s : State F) (f : F) (r : SemaphoreResult) :
    (s.report f r).sem = s.sem := rfl
omit [Fintype F] in
@[simp] theorem report_vs (s : State F) (f : F) (r : SemaphoreResult) :
    (s.report f r).vs = s.vs := rfl
omit [Fintype F] in
theorem report_successes (s : State F) (f : F) (r : SemaphoreResult) :
    (s.report f r).successes = s.successes + r.ok.toNat := by
  rw [State.successes, State.report, List.countP_append, List.countP_singleton]
  cases r.ok <;> rfl

/-- `f` goes from `p` to `q`, with some change to the counters and the inner semaphore. -/
theorem counts_goto {s t : State F} {f : F} {p : Pc} (hpc : s.pc f = p) (ht : t.pc = s.pc) (q : Pc) :
    (t.goto f q).pending + p.pending.toNat + s.sem.queueds
      = s.pending + q.pending.toNat + t.sem.queueds ∧
    (t.goto f q).owing + p.owing.toNat = s.owing + q.owing.toNat := by
  have h1 := tally_update (fun p : Pc => p.pending.toNat) s.pc f q
  have h2 := tally_update (fun p : Pc => p.owing.toNat) s.pc f q
  rw [hpc] at h1 h2
  have hP : (t.goto f q).pending
      = tally (fun p : Pc => p.pending.toNat) (Function.update s.pc f q) + t.sem.queueds := by
    rw [State.pending, State.goto, ht]
  have hO : (t.goto f q).owing
      = tally (fun p : Pc => p.owing.toNat) (Function.update s.pc f q) := by
    rw [State.owing, State.goto, ht]
  have hs : s.pending = tally (fun p : Pc => p.pending.toNat) s.pc + s.sem.queueds := rfl
  exact ⟨by omega, by rw [hO]; exact h2⟩

theorem counts_report {s t : State F} {f : F} {p : Pc} (hpc : s.pc f = p) (ht : t.pc = s.pc)
    (r : SemaphoreResult) :
    (t.report f r).pending + p.pending.toNat + s.sem.queueds = s.pending + t.sem.queueds ∧
    (t.report f r).owing + p.owing.toNat = s.owing :=
  counts_goto hpc ht .out

/-- STEP: every step but the compensation that finds the counter open keeps the balance. -/
theorem balanced_step {c : ℤ} {s s' : State F} {a : Action F} (hq : Queues s.sem)
    (hl : ∀ f, Linked (s.pc f) (s.sem.pc f)) (hi : Balanced c s) (hok : undoesOpen s a = false)
    (h : step s a = some s') : Balanced c s' := by
  obtain ⟨hcounter, hben, hpending⟩ := hi
  cases step_did hq hl h with
  | @opened f hpc hb =>
    obtain ⟨hP, hO⟩ := counts_report (t := { s with ben := s.ben - 1 }) hpc rfl .wasOpen
    have hS : (State.report { s with ben := s.ben - 1 } f .wasOpen).successes = s.successes + 1 :=
      report_successes _ f _
    simp only [Pc.pending, Pc.owing, Bool.toNat_false] at hP hO
    refine ⟨hcounter, ?_, ?_⟩ <;> simp only [report_ben, report_sem, report_vs] <;> omega
  | @shut f timeout hpc hb =>
    obtain ⟨hP, hO⟩ := counts_goto (t := { s with ben := s.ben - 1 }) hpc rfl (.semP timeout)
    have hS : (State.goto { s with ben := s.ben - 1 } f (.semP timeout)).successes = s.successes :=
      rfl
    simp only [Pc.pending, Pc.owing, Bool.toNat_false, Bool.toNat_true] at hP hO
    refine ⟨hcounter, ?_, ?_⟩ <;> simp only [goto_ben, goto_sem, goto_vs] <;> omega
  | @loaded f x hpc =>
    obtain ⟨hP, hO⟩ := counts_goto (t := s) hpc rfl (.tryP x)
    simp only [Pc.pending, Pc.owing, Bool.toNat_false] at hP hO
    refine ⟨hcounter, ?_, ?_⟩ <;> simp only [goto_ben, goto_sem, goto_vs, goto_successes] <;> omega
  | @swapped f x hpc hb =>
    obtain ⟨hP, hO⟩ := counts_report (t := { s with ben := s.ben - 1 }) hpc rfl .wasOpen
    have hS : (State.report { s with ben := s.ben - 1 } f .wasOpen).successes = s.successes + 1 :=
      report_successes _ f _
    simp only [Pc.pending, Pc.owing, Bool.toNat_false] at hP hO
    refine ⟨hcounter, ?_, ?_⟩ <;> simp only [report_ben, report_sem, report_vs] <;> omega
  | @swapFailed f x hpc =>
    obtain ⟨hP, hO⟩ := counts_report (t := s) hpc rfl .timeout
    have hS : (s.report f .timeout).successes = s.successes := report_successes s f .timeout
    simp only [Pc.pending, Pc.owing, Bool.toNat_false] at hP hO
    refine ⟨hcounter, ?_, ?_⟩ <;> simp only [report_ben, report_sem, report_vs] <;> omega
  | put hb =>
    have hP : State.pending { s with ben := s.ben + 1, vs := s.vs + 1 } = s.pending := rfl
    have hO : State.owing { s with ben := s.ben + 1, vs := s.vs + 1 } = s.owing := rfl
    have hS : State.successes { s with ben := s.ben + 1, vs := s.vs + 1 } = s.successes := rfl
    refine ⟨hcounter, ?_, ?_⟩ <;> simp only [hP, hO, hS] <;> omega
  | @owed f hpc hb =>
    obtain ⟨hP, hO⟩ :=
      counts_goto (t := { s with ben := s.ben + 1, vs := s.vs + 1 }) hpc rfl .semV
    have hS : (State.goto { s with ben := s.ben + 1, vs := s.vs + 1 } f .semV).successes
      = s.successes := rfl
    simp only [Pc.pending, Pc.owing, Bool.toNat_false, Bool.toNat_true] at hP hO
    refine ⟨hcounter, ?_, ?_⟩ <;> simp only [goto_ben, goto_sem, goto_vs] <;> omega
  | @joined f timeout hpc hc =>
    have hout : s.sem.pc f = .out := out_of_linked hl fun _ => by rw [hpc]; simp
    obtain ⟨hgrants, hqueueds⟩ := counts_joined hout timeout.isSome
    obtain ⟨hP, hO⟩ := counts_goto (t := { s with sem := s.sem.join f timeout.isSome }) hpc rfl
      (.inSem timeout.isSome)
    have hS : (State.goto { s with sem := s.sem.join f timeout.isSome } f
      (.inSem timeout.isSome)).successes = s.successes := rfl
    simp only [Pc.pending, Pc.owing, Bool.toNat_false, Bool.toNat_true] at hP hO
    refine ⟨hcounter, ?_, ?_⟩ <;> simp only [goto_ben, goto_sem, goto_vs, join_counter] <;> omega
  | @took f timeout r hpc hc hr =>
    obtain ⟨hP, hO⟩ :=
      counts_report (t := { s with sem := s.sem.setCounter (s.sem.counter - 1) }) hpc rfl r
    have hS : (State.report { s with sem := s.sem.setCounter (s.sem.counter - 1) } f r).successes
        = s.successes + 1 := by
      have := report_successes { s with sem := s.sem.setCounter (s.sem.counter - 1) } f r
      rwa [hr] at this
    simp only [Pc.pending, Pc.owing, Bool.toNat_false, Bool.toNat_true] at hP hO
    simp only [setCounter_queueds] at hP
    refine ⟨?_, ?_, ?_⟩ <;>
      simp only [report_ben, report_sem, report_vs, setCounter_counter, setCounter_grants] <;> omega
  | @late f timeout hpc =>
    obtain ⟨hP, hO⟩ := counts_goto (t := s) hpc rfl .undo
    simp only [Pc.pending, Pc.owing, Bool.toNat_false, Bool.toNat_true] at hP hO
    refine ⟨hcounter, ?_, ?_⟩ <;> simp only [goto_ben, goto_sem, goto_vs, goto_successes] <;> omega
  | @timedOut f hpc =>
    obtain ⟨hgrants, hqueueds⟩ := counts_timer hpc
    have hP : State.pending { s with sem := s.sem.goto f .expired } = s.pending := by
      simp only [State.pending, hqueueds]
    have hO : State.owing { s with sem := s.sem.goto f .expired } = s.owing := rfl
    have hS : State.successes { s with sem := s.sem.goto f .expired } = s.successes := rfl
    refine ⟨hcounter, ?_, ?_⟩ <;> simp only [hP, hO, hS, hgrants, goto_counter] <;> omega
  | @cancelled f hexpired hpc =>
    obtain ⟨hgrants, hqueueds⟩ := counts_cancel hexpired
    obtain ⟨hP, hO⟩ := counts_goto (t := { s with sem := s.sem.withdraw f }) hpc rfl .undo
    have hS : (State.goto { s with sem := s.sem.withdraw f } f .undo).successes = s.successes := rfl
    simp only [Pc.pending, Pc.owing, Bool.toNat_false, Bool.toNat_true] at hP hO
    refine ⟨hcounter, ?_, ?_⟩ <;> simp only [goto_ben, goto_sem, goto_vs, withdraw_counter] <;> omega
  | @resumed f timed hgranted hpc =>
    obtain ⟨hgrants, hqueueds⟩ := counts_resumption hgranted
    obtain ⟨hP, hO⟩ := counts_report (t := { s with sem := s.sem.goto f .out }) hpc rfl .success
    have hS : (State.report { s with sem := s.sem.goto f .out } f .success).successes
        = s.successes + 1 := report_successes _ f _
    simp only [Pc.pending, Pc.owing, Bool.toNat_false] at hP hO
    refine ⟨hcounter, ?_, ?_⟩ <;> simp only [report_ben, report_sem, report_vs, goto_counter] <;>
      omega
  | @undone f ha hpc =>
    have hneg : s.ben < 0 := by
      subst ha
      rw [undoesOpen, hpc] at hok
      by_contra hopen
      simp only [beq_self_eq_true, Bool.true_and, decide_eq_false_iff_not] at hok
      omega
    obtain ⟨hP, hO⟩ := counts_report (t := { s with ben := s.ben + 1 }) hpc rfl .timeout
    have hS : (State.report { s with ben := s.ben + 1 } f .timeout).successes = s.successes :=
      report_successes _ f _
    simp only [Pc.pending, Pc.owing, Bool.toNat_false, Bool.toNat_true] at hP hO
    refine ⟨hcounter, ?_, ?_⟩ <;> simp only [report_ben, report_sem, report_vs] <;> omega
  | @passed f next sem hpc hg =>
    obtain ⟨hgrants, hqueueds⟩ := hg.counts
    obtain ⟨hP, hO⟩ := counts_goto (t := { s with sem := sem }) hpc rfl .out
    have hS : (State.goto { s with sem := sem } f .out).successes = s.successes := rfl
    have hc := hg.counter
    simp only [Pc.pending, Pc.owing, Bool.toNat_false, Bool.toNat_true] at hP hO
    refine ⟨?_, ?_, ?_⟩ <;> simp only [goto_ben, goto_sem, goto_vs] <;> omega
  | @kept f hpc =>
    obtain ⟨hP, hO⟩ :=
      counts_goto (t := { s with sem := s.sem.setCounter (s.sem.counter + 1) }) hpc rfl .out
    have hS : (State.goto { s with sem := s.sem.setCounter (s.sem.counter + 1) } f .out).successes
      = s.successes := rfl
    simp only [Pc.pending, Pc.owing, Bool.toNat_false, Bool.toNat_true] at hP hO
    simp only [setCounter_queueds] at hP
    refine ⟨?_, ?_, ?_⟩ <;>
      simp only [goto_ben, goto_sem, goto_vs, setCounter_counter, setCounter_grants] <;> omega

/-- RUN: while every compensation finds the counter negative, the counters are in balance. -/
theorem balanced_run {c : ℕ} {as : List (Action F)} {s : State F}
    (h : Run (system F c) (Avoids undoesOpen) as s) : Balanced c s := by
  refine (h.inv (I := fun s => Queues s.sem ∧ (∀ f, Linked (s.pc f) (s.sem.pc f)) ∧ Balanced c s)
    ?_ ?_).2.2
  · rintro _ rfl
    have hG : (LockedSemaphore.start 0 : LockedSemaphore.State F).grants = 0 :=
      tally_eq_zero fun _ => rfl
    have hP : (start (c : ℤ) : State F).pending = 0 := by
      have h1 : tally (fun p : Pc => p.pending.toNat) (start (c : ℤ) : State F).pc = 0 :=
        tally_eq_zero fun _ => rfl
      have h2 : (LockedSemaphore.start 0 : LockedSemaphore.State F).queueds = 0 :=
        tally_eq_zero fun _ => rfl
      show tally (fun p : Pc => p.pending.toNat) (start (c : ℤ) : State F).pc
        + (LockedSemaphore.start 0 : LockedSemaphore.State F).queueds = 0
      rw [h1, h2]
    have hO : (start (c : ℤ) : State F).owing = 0 := tally_eq_zero fun _ => rfl
    refine ⟨queues_start 0, fun _ => rfl, ⟨le_refl _, ?_, ?_⟩⟩
    · rw [hP]
      show (c : ℤ) = c + (0 : ℕ) - ((0 : ℕ) + (_ : ℕ)) - (0 : ℕ)
      rw [show (start (c : ℤ) : State F).sem = LockedSemaphore.start 0 from rfl, hG]
      omega
    · rw [hP, hO]
      show ((0 : ℕ) : ℤ) = (0 : ℕ) + 0 + max 0 (-(c : ℤ))
      omega
  · rintro s a s' ⟨hq, hl, hb⟩ hok hs
    exact ⟨queues_step hq hl hs, linked_step hq hl hs, balanced_step hq hl hb hok hs⟩

/-- CORRECT: while every compensation finds the counter negative, no more calls report success than
    there have been permits. -/
theorem successes_le_of_run {c : ℕ} {as : List (Action F)} {s : State F}
    (h : Run (system F c) (Avoids undoesOpen) as s) : s.successes ≤ c + s.vs := by
  obtain ⟨hcounter, hben, hpending⟩ := balanced_run h
  omega

end Counting

/-- Another waiter is there when the timed-out one compensates, and gets the permit of the `V`. -/
theorem successes_le_of_run_timeout : ∃ as, ∃ s : State (Fin 3),
    Run (system (Fin 3) (0 : ℕ)) (Avoids undoesOpen) as s ∧
      s.ps = [(0, .timeout), (1, .success)] ∧ s.successes ≤ 0 + s.vs := by
  obtain ⟨s, hrun, hp⟩ := run_of_execAvoiding (system (Fin 3) (0 : ℕ)) undoesOpen (start 0)
    [.PTimeout 0 true, .next 0, .P 1, .next 1, .timer 0, .V 2, .next 2, .next 0, .next 0,
      .resumption 1]
    (fun s => s.ps == [(0, .timeout), (1, .success)]) rfl (by decide)
  exact ⟨_, s, hrun, beq_iff_eq.mp hp, successes_le_of_run hrun⟩

/-- A `P` waits with a timeout, its timer wins, a `V` puts its permit into the inner semaphore, the
    compensation puts it into the counter again, and two more calls of `P` find one each. -/
def twice (f g : F) : List (Action F) :=
  [.PTimeout f true, .next f, .timer f, .V g, .next g, .next f, .next f, .P f, .P g, .next g]

/-- WRONG: one `V` serves two calls. -/
theorem successes_exceed : ¬ ∀ s : State (Fin 2), Reach (system (Fin 2) (0 : ℕ)) s →
    s.successes ≤ 0 + s.vs := by
  intro hall
  obtain ⟨s, hr, hp⟩ := reach_of_exec (system (Fin 2) (0 : ℕ)) (start 0) (twice 0 1)
    (fun s => decide (0 + s.vs < s.successes)) rfl (by decide)
  have hle := hall s hr
  have hlt := of_decide_eq_true hp
  omega

end Libfibre.FredBenaphore
