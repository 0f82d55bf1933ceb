import Libfibre.Schemes.Transition
import Libfibre.Schemes.Tally
import Mathlib.Tactic.Basic

/-! `LimitedTimeoutSemaphore` (`MCSTimeoutSemaphore.h`): one counter over a queue of which only this
    much is used: `tryPop` removes some fibre that has pushed and not timed out, or returns null.
    Each load and each compare-and-swap of the counter, each push, pop and timeout is one step.

        counter      1        open
                     0        closed, nobody waits that no `V` is looking for
                    -k        k waiters that no `V` is looking for
                   1 + k      open, and k calls of `V` are to stop looking

    A waiter that times out adds 1 on its way out; from 0 it jumps to 2, since the one `V` that has
    counted on it will find nobody and is to leave its permit behind. -/

namespace Libfibre.LimitedTimeoutSemaphore
open Transition Tally

/-! ### The code -/

/-- Where a caller is. -/
inductive Pc where
  | idle
  | load (timed : Bool)               -- in `P`, before it reads `counter`
  | swap (timed : Bool) (prev : ℤ)    -- in `P`, before its compare-and-swap
  | tryLoad
  | trySwap
  | pushing (timed : Bool)
  | queued (timed : Bool)
  | popped
  | expired                           -- in `handleTimeout`, before it reads `counter`
  | handle (prev : ℤ)                 -- in `handleTimeout`, before its compare-and-swap
  | post (c : ℤ)                      -- in `V`, before its compare-and-swap
  | searching                         -- in `V`, before `tryPop`
  | missed                            -- in `V`, after a `tryPop` that returned null
  | cancel (c : ℤ)                    -- in `V`, before the compare-and-swap that cancels it
  deriving DecidableEq

/-- `counter`, and where each fibre is. -/
structure State (C : Type) where
  counter : ℤ
  pc : C → Pc
  granted : ℕ     -- calls of `P` and `tryP` that have found it open or have been popped
  posted : ℕ      -- calls of `V` that have changed the counter or found it open

/-- A call begins, the queue gives its result, or a call goes on by one access. -/
inductive Action (C : Type) where
  | P (i : C) (timed : Bool)
  | tryP (i : C)
  | V (i : C)
  | giveUp (i : C)                        -- `timeout <= now` before the decrement
  | push (i : C)
  | timeout (i : C)                       -- the queue lets a timed waiter go unpopped
  | tryPop (i : C) (found : Option C)
  | next (i : C)                          -- the caller's next access to `counter`, or its return

variable {C : Type} [DecidableEq C]

/-- Fibre `i` goes to another place. -/
def State.goto (s : State C) (i : C) (p : Pc) : State C :=
  { s with pc := Function.update s.pc i p }

/-- The compare-and-swap of `P`. -/
def swapP (s : State C) (i : C) (timed : Bool) (prev : ℤ) : State C :=
  if prev < 2 ∧ s.counter = prev then
    if 0 < prev then State.goto { s with counter := prev - 1, granted := s.granted + 1 } i .idle
    else State.goto { s with counter := prev - 1 } i (.pushing timed)
  else s.goto i (.load timed)

/-- The compare-and-swap of `tryP`. -/
def swapTry (s : State C) (i : C) : State C :=
  if s.counter = 1 then State.goto { s with counter := 0, granted := s.granted + 1 } i .idle
  else s.goto i .idle

/-- The compare-and-swap of `handleTimeout`. -/
def swapTimeout (s : State C) (i : C) (prev : ℤ) : State C :=
  if s.counter = prev then
    State.goto { s with counter := if prev = 0 then 2 else prev + 1 } i .idle
  else s.goto i .expired

/-- The compare-and-swap of `V`; a failing one loads the counter. -/
def swapV (s : State C) (i : C) (c : ℤ) : State C :=
  if s.counter = c then
    if c = 0 then State.goto { s with counter := c + 1, posted := s.posted + 1 } i .idle
    else State.goto { s with counter := c + 1, posted := s.posted + 1 } i .searching
  else if 1 ≤ s.counter then State.goto { s with posted := s.posted + 1 } i .idle
  else s.goto i (.post s.counter)

/-- The compare-and-swap by which a `V` is cancelled. -/
def swapCancel (s : State C) (i : C) (c : ℤ) : State C :=
  if s.counter = c then State.goto { s with counter := c - 1 } i .idle else s.goto i .searching

/-- `tryPop`, and the end of `V` if it returns a fibre. -/
def tryPop (s : State C) (i : C) : Option C → Option (State C)
  | none => some (s.goto i .missed)
  | some f =>
    if ∃ timed, s.pc f = .queued timed then
      some (State.goto { s.goto f .popped with granted := s.granted + 1 } i .idle)
    else none

instance (s : State C) (f : C) : Decidable (∃ timed, s.pc f = .queued timed) :=
  decidable_of_iff (s.pc f = .queued false ∨ s.pc f = .queued true)
    ⟨fun h => h.elim (⟨false, ·⟩) (⟨true, ·⟩), fun ⟨timed, h⟩ => by cases timed <;> simp [h]⟩

/-- One access of a call. -/
def next (s : State C) (i : C) : Option (State C) :=
  match s.pc i with
  | .load timed => some (s.goto i (.swap timed s.counter))
  | .swap timed prev => some (swapP s i timed prev)
  | .tryLoad => some (s.goto i (if s.counter = 1 then .trySwap else .idle))
  | .trySwap => some (swapTry s i)
  | .popped => some (s.goto i .idle)
  | .expired => some (s.goto i (.handle s.counter))
  | .handle prev => some (swapTimeout s i prev)
  | .post c => some (swapV s i c)
  | .missed => some (s.goto i (if 2 ≤ s.counter then .cancel s.counter else .searching))
  | .cancel c => some (swapCancel s i c)
  | _ => none

/-- One step. -/
def step (s : State C) : Action C → Option (State C)
  | .P i timed => if s.pc i = .idle then some (s.goto i (.load timed)) else none
  | .tryP i => if s.pc i = .idle then some (s.goto i .tryLoad) else none
  | .V i => if s.pc i = .idle then some (s.goto i (.post 0)) else none
  | .giveUp i => if s.pc i = .load true then some (s.goto i .idle) else none
  | .push i =>
    match s.pc i with
    | .pushing timed => some (s.goto i (.queued timed))
    | _ => none
  | .timeout i => if s.pc i = .queued true then some (s.goto i .expired) else none
  | .tryPop i found => if s.pc i = .searching then tryPop s i found else none
  | .next i => next s i

/-- The constructed semaphore, with `cnt` permits. -/
def start (cnt : ℤ) : State C := ⟨cnt, fun _ => .idle, 0, 0⟩

/-- A semaphore constructed with `cnt`; the constructor checks that this is 0 or 1. -/
def system (C : Type) [DecidableEq C] (cnt : ℤ) : System (State C) (Action C) where
  init s := (cnt = 0 ∨ cnt = 1) ∧ s = start cnt
  step := step

/-! ### What a step does -/

/-- A `V` that looks for a waiter. -/
def Pc.searches : Pc → Bool
  | .searching | .missed | .cancel _ => true
  | _ => false

/-- A `P` that has decremented a counter that was not positive, and has been neither popped nor has
    finished `handleTimeout`. -/
def Pc.waits : Pc → Bool
  | .pushing _ | .queued _ | .expired | .handle _ => true
  | _ => false

/-- What the caller has tested of the value it has loaded. -/
def Pc.tested : Pc → Bool
  | .post c => decide (c ≤ 0)
  | .cancel c => decide (2 ≤ c)
  | _ => true

/-- Everything a step can do. -/
inductive Did (s : State C) : State C → Prop
  | quiet {i : C} {p : Pc} : p.searches = (s.pc i).searches → p.waits = (s.pc i).waits →
      p.tested = true → Did s (s.goto i p)
  | opened {i : C} : (s.pc i).searches = false → (s.pc i).waits = false → s.counter = 1 →
      Did s (State.goto { s with counter := 0, granted := s.granted + 1 } i .idle)
  | shut {i : C} {timed : Bool} {prev : ℤ} : s.pc i = .swap timed prev → s.counter ≤ 0 →
      Did s (State.goto { s with counter := s.counter - 1 } i (.pushing timed))
  | put {i : C} {c : ℤ} : s.pc i = .post c → s.counter = 0 →
      Did s (State.goto { s with counter := 1, posted := s.posted + 1 } i .idle)
  | owed {i : C} {c : ℤ} : s.pc i = .post c → s.counter < 0 →
      Did s (State.goto { s with counter := s.counter + 1, posted := s.posted + 1 } i .searching)
  | full {i : C} {c : ℤ} : s.pc i = .post c →
      Did s (State.goto { s with posted := s.posted + 1 } i .idle)
  | popped {i f : C} {timed : Bool} : s.pc i = .searching → s.pc f = .queued timed →
      Did s (State.goto { s.goto f .popped with granted := s.granted + 1 } i .idle)
  | handled {i : C} {prev : ℤ} : s.pc i = .handle prev →
      Did s (State.goto { s with counter := if s.counter = 0 then 2 else s.counter + 1 } i .idle)
  | cancelled {i : C} {c : ℤ} : s.pc i = .cancel c → 2 ≤ s.counter →
      Did s (State.goto { s with counter := s.counter - 1 } i .idle)

theorem did_swapP {s : State C} {i : C} {timed : Bool} {prev : ℤ}
    (hpc : s.pc i = .swap timed prev) : Did s (swapP s i timed prev) := by
  rw [swapP]
  split_ifs with hcas hpos
  · obtain ⟨hlt, rfl⟩ := hcas
    have hone : s.counter = 1 := by omega
    have hzero : s.counter - 1 = 0 := by omega
    rw [hzero]
    exact .opened (by rw [hpc]; rfl) (by rw [hpc]; rfl) hone
  · obtain ⟨_, rfl⟩ := hcas
    exact .shut hpc (by omega)
  · exact .quiet (by rw [hpc]; rfl) (by rw [hpc]; rfl) rfl

theorem did_swapTry {s : State C} {i : C} (hpc : s.pc i = .trySwap) : Did s (swapTry s i) := by
  rw [swapTry]
  split_ifs with hone
  · exact .opened (by rw [hpc]; rfl) (by rw [hpc]; rfl) hone
  · exact .quiet (by rw [hpc]; rfl) (by rw [hpc]; rfl) rfl

theorem did_swapTimeout {s : State C} {i : C} {prev : ℤ} (hpc : s.pc i = .handle prev) :
    Did s (swapTimeout s i prev) := by
  rw [swapTimeout]
  split
  case isTrue hcas =>
    subst hcas
    exact .handled hpc
  case isFalse => exact .quiet (by rw [hpc]; rfl) (by rw [hpc]; rfl) rfl

theorem did_swapV {s : State C} {i : C} {c : ℤ} (hpc : s.pc i = .post c) (hc : c ≤ 0) :
    Did s (swapV s i c) := by
  rw [swapV]
  split_ifs with hcas hzero hopen
  · subst hzero
    exact .put hpc hcas
  · subst hcas
    exact .owed hpc (by omega)
  · exact .full hpc
  · refine .quiet (by rw [hpc]; rfl) (by rw [hpc]; rfl) ?_
    exact decide_eq_true (by omega)

theorem did_swapCancel {s : State C} {i : C} {c : ℤ} (hpc : s.pc i = .cancel c) (hc : 2 ≤ c) :
    Did s (swapCancel s i c) := by
  rw [swapCancel]
  split_ifs with hcas
  · subst hcas
    exact .cancelled hpc hc
  · exact .quiet (by rw [hpc]; rfl) (by rw [hpc]; rfl) rfl

theorem did_next {s s' : State C} {i : C} (ht : (s.pc i).tested = true) (h : next s i = some s') :
    Did s s' := by
  cases hpc : s.pc i with
  | load timed =>
    rw [next, hpc, Option.some.injEq] at h
    subst h
    exact .quiet (by rw [hpc]; rfl) (by rw [hpc]; rfl) rfl
  | swap timed prev =>
    rw [next, hpc, Option.some.injEq] at h
    subst h
    exact did_swapP hpc
  | tryLoad =>
    rw [next, hpc, Option.some.injEq] at h
    subst h
    split_ifs <;> exact .quiet (by rw [hpc]; rfl) (by rw [hpc]; rfl) rfl
  | trySwap =>
    rw [next, hpc, Option.some.injEq] at h
    subst h
    exact did_swapTry hpc
  | popped =>
    rw [next, hpc, Option.some.injEq] at h
    subst h
    exact .quiet (by rw [hpc]; rfl) (by rw [hpc]; rfl) rfl
  | expired =>
    rw [next, hpc, Option.some.injEq] at h
    subst h
    exact .quiet (by rw [hpc]; rfl) (by rw [hpc]; rfl) rfl
  | handle prev =>
    rw [next, hpc, Option.some.injEq] at h
    subst h
    exact did_swapTimeout hpc
  | post c =>
    rw [next, hpc, Option.some.injEq] at h
    subst h
    rw [hpc] at ht
    exact did_swapV hpc (of_decide_eq_true ht)
  | missed =>
    rw [next, hpc, Option.some.injEq] at h
    subst h
    split_ifs with htwo
    · exact .quiet (by rw [hpc]; rfl) (by rw [hpc]; rfl) (decide_eq_true htwo)
    · exact .quiet (by rw [hpc]; rfl) (by rw [hpc]; rfl) rfl
  | cancel c =>
    rw [next, hpc, Option.some.injEq] at h
    subst h
    rw [hpc] at ht
    exact did_swapCancel hpc (of_decide_eq_true ht)
  | idle | pushing | queued | searching => rw [next, hpc] at h; cases h

/-- INVERSION: every step is one of the listed ones. -/
theorem step_did {s s' : State C} {a : Action C} (ht : ∀ i, (s.pc i).tested = true)
    (h : step s a = some s') : Did s s' := by
  cases a with
  | P i timed =>
    obtain ⟨hpc, h⟩ := Option.ite_none_right_eq_some.mp h
    cases h
    exact .quiet (by rw [hpc]; rfl) (by rw [hpc]; rfl) rfl
  | tryP i =>
    obtain ⟨hpc, h⟩ := Option.ite_none_right_eq_some.mp h
    cases h
    exact .quiet (by rw [hpc]; rfl) (by rw [hpc]; rfl) rfl
  | V i =>
    obtain ⟨hpc, h⟩ := Option.ite_none_right_eq_some.mp h
    cases h
    exact .quiet (by rw [hpc]; rfl) (by rw [hpc]; rfl) rfl
  | giveUp i =>
    obtain ⟨hpc, h⟩ := Option.ite_none_right_eq_some.mp h
    cases h
    exact .quiet (by rw [hpc]; rfl) (by rw [hpc]; rfl) rfl
  | push i =>
    cases hpc : s.pc i with
    | pushing timed =>
      rw [step, hpc, Option.some.injEq] at h
      subst h
      exact .quiet (by rw [hpc]; rfl) (by rw [hpc]; rfl) rfl
    | _ => rw [step, hpc] at h; cases h
  | timeout i =>
    obtain ⟨hpc, h⟩ := Option.ite_none_right_eq_some.mp h
    cases h
    exact .quiet (by rw [hpc]; rfl) (by rw [hpc]; rfl) rfl
  | tryPop i found =>
    obtain ⟨hpc, h⟩ := Option.ite_none_right_eq_some.mp h
    cases found with
    | none =>
      cases h
      exact .quiet (by rw [hpc]; rfl) (by rw [hpc]; rfl) rfl
    | some f =>
      obtain ⟨⟨timed, hf⟩, h⟩ := Option.ite_none_right_eq_some.mp h
      cases h
      exact .popped hpc hf
  | next i => exact did_next (ht i) h

theorem tested_goto {s : State C} (hi : ∀ j, (s.pc j).tested = true) {i : C} {p : Pc}
    (hp : p.tested = true) (j : C) : (Function.update s.pc i p j).tested = true := by
  rcases eq_or_ne j i with rfl | hne
  · rwa [Function.update_self]
  · rw [Function.update_of_ne hne]; exact hi j

/-- STEP: nobody forgets what it has tested. -/
theorem Did.tested {s s' : State C} (hd : Did s s') (hi : ∀ j, (s.pc j).tested = true) :
    ∀ j, (s'.pc j).tested = true := by
  cases hd with
  | quiet _ _ hp => exact tested_goto hi hp
  | @popped i f => exact tested_goto (s := s.goto f .popped) (tested_goto hi rfl) rfl
  | _ => exact tested_goto hi rfl

/-! ### The counter -/

/-- INVARIANT: with `v` searching and `n` waiting calls the counter is `v - n`, and one more if it is
    positive. Besides the permits granted so far, each searching `V` may still grant one; while the
    counter is positive, it and each waiter may. -/
def Balanced (cnt counter : ℤ) (v n granted posted : ℕ) : Prop :=
  (counter ≤ 0 ∧ counter = v - n ∧ granted + v ≤ cnt + posted) ∨
  (1 ≤ counter ∧ counter = v - n + 1 ∧ granted + (n + 1) ≤ cnt + posted)

section Counting
variable [Fintype C]

/-- The calls of `V` that look for a waiter. -/
def State.searching (s : State C) : ℕ := tally (fun p => p.searches.toNat) s.pc

/-- The calls of `P` that wait. -/
def State.waiting (s : State C) : ℕ := tally (fun p => p.waits.toNat) s.pc

/-- INVARIANT: the permits are those that there were and those posted, less those granted. -/
def State.Balanced (cnt : ℤ) (s : State C) : Prop :=
  LimitedTimeoutSemaphore.Balanced cnt s.counter s.searching s.waiting s.granted s.posted

theorem counts_goto (s : State C) (i : C) (q : Pc) :
    (s.goto i q).searching + (s.pc i).searches.toNat = s.searching + q.searches.toNat ∧
    (s.goto i q).waiting + (s.pc i).waits.toNat = s.waiting + q.waits.toNat :=
  ⟨tally_update _ s.pc i q, tally_update _ s.pc i q⟩

/-- One caller moves from `p` to `q`: the arithmetic of a step is about the head counts `v` and `n`
    before it and what they become. -/
theorem balanced_goto {cnt counter : ℤ} {granted posted : ℕ} {s : State C} {i : C} {p : Pc}
    (hpc : s.pc i = p) (q : Pc) (hb : s.Balanced cnt)
    (harith : ∀ v n v' n' : ℕ, v' + p.searches.toNat = v + q.searches.toNat →
      n' + p.waits.toNat = n + q.waits.toNat → Balanced cnt s.counter v n s.granted s.posted →
      Balanced cnt counter v' n' granted posted) :
    (State.goto ⟨counter, s.pc, granted, posted⟩ i q).Balanced cnt := by
  obtain ⟨hsearch, hwait⟩ := counts_goto s i q
  rw [hpc] at hsearch hwait
  exact harith s.searching s.waiting _ _ hsearch hwait hb

/-- STEP: every step keeps the balance. -/
theorem Did.balanced {cnt : ℤ} {s s' : State C} (hd : Did s s') (hb : s.Balanced cnt) :
    s'.Balanced cnt := by
  cases hd with
  | @quiet i q hs hw _ =>
    refine balanced_goto rfl q hb ?_
    intro v n v' n' hv hn hb
    rw [hs] at hv
    rw [hw] at hn
    rw [Nat.add_right_cancel hv, Nat.add_right_cancel hn]
    exact hb
  | @opened i hs hw hone =>
    refine balanced_goto rfl .idle hb ?_
    intro v n v' n' hv hn hb
    rw [hs] at hv
    rw [hw] at hn
    simp only [Pc.searches, Pc.waits, Bool.toNat_false] at hv hn
    dsimp only [Balanced] at hb ⊢
    omega
  | @shut i timed prev hpc hle =>
    refine balanced_goto hpc (.pushing timed) hb ?_
    intro v n v' n' hv hn hb
    simp only [Pc.searches, Pc.waits, Bool.toNat_false, Bool.toNat_true] at hv hn
    dsimp only [Balanced] at hb ⊢
    omega
  | @put i c hpc hzero =>
    refine balanced_goto hpc .idle hb ?_
    intro v n v' n' hv hn hb
    simp only [Pc.searches, Pc.waits, Bool.toNat_false] at hv hn
    dsimp only [Balanced] at hb ⊢
    omega
  | @owed i c hpc hneg =>
    refine balanced_goto hpc .searching hb ?_
    intro v n v' n' hv hn hb
    simp only [Pc.searches, Pc.waits, Bool.toNat_false, Bool.toNat_true] at hv hn
    dsimp only [Balanced] at hb ⊢
    omega
  | @full i c hpc =>
    refine balanced_goto hpc .idle hb ?_
    intro v n v' n' hv hn hb
    simp only [Pc.searches, Pc.waits, Bool.toNat_false] at hv hn
    dsimp only [Balanced] at hb ⊢
    omega
  | @popped i f timed hpc hf =>
    -- the fibre found leaves the waiters first, then the `V` stops searching
    have hne : i ≠ f := by
      rintro rfl
      rw [hpc] at hf
      cases hf
    have hi : (s.goto f .popped).pc i = .searching := by
      rw [← hpc]
      exact Function.update_of_ne hne ..
    obtain ⟨hv, hn⟩ := counts_goto s f .popped
    obtain ⟨hv', hn'⟩ := counts_goto (s.goto f .popped) i .idle
    rw [hf] at hv hn
    rw [hi] at hv' hn'
    simp only [Pc.searches, Pc.waits, Bool.toNat_false, Bool.toNat_true] at hv hn hv' hn'
    show Balanced cnt s.counter ((s.goto f .popped).goto i .idle).searching
      ((s.goto f .popped).goto i .idle).waiting (s.granted + 1) s.posted
    dsimp only [State.Balanced, Balanced] at hb ⊢
    omega
  | @handled i prev hpc =>
    refine balanced_goto hpc .idle hb ?_
    intro v n v' n' hv hn hb
    simp only [Pc.searches, Pc.waits, Bool.toNat_false, Bool.toNat_true] at hv hn
    dsimp only [Balanced] at hb ⊢
    split_ifs <;> omega
  | @cancelled i c hpc htwo =>
    refine balanced_goto hpc .idle hb ?_
    intro v n v' n' hv hn hb
    simp only [Pc.searches, Pc.waits, Bool.toNat_false, Bool.toNat_true] at hv hn
    dsimp only [Balanced] at hb ⊢
    omega

/-- RUN: the counter is in balance. -/
theorem balanced_run {cnt : ℤ} {s : State C} (h : Reach (system C cnt) s) : s.Balanced cnt := by
  refine (h.inv (I := fun s => (∀ i, (s.pc i).tested = true) ∧ s.Balanced cnt) ?_ ?_).2
  · rintro s ⟨hcnt, rfl⟩
    have hv : (start cnt : State C).searching = 0 := tally_eq_zero fun _ => rfl
    have hn : (start cnt : State C).waiting = 0 := tally_eq_zero fun _ => rfl
    refine ⟨fun _ => rfl, ?_⟩
    rw [State.Balanced, hv, hn]
    dsimp only [Balanced, start]
    omega
  · rintro s a s' ⟨ht, hb⟩ hs
    have hd := step_did ht hs
    exact ⟨hd.tested ht, hd.balanced hb⟩

/-- CORRECT: the counter tells the searching calls of `V` less the waiting calls of `P`; a searching
    `V` with nobody left to find is told so, and no more calls are granted than the initial value and
    the calls of `V` provide. -/
theorem counter_correct {cnt : ℤ} {s : State C} (h : Reach (system C cnt) s) :
    (s.counter ≤ 0 → s.counter = s.searching - s.waiting) ∧
    (1 ≤ s.counter → s.counter = s.searching - s.waiting + 1) ∧
    (0 < s.searching → s.waiting = 0 → 2 ≤ s.counter) ∧
    (s.searching = 0 → s.counter ≤ 1) ∧
    (s.granted : ℤ) ≤ cnt + s.posted := by
  have hb := balanced_run h
  rw [State.Balanced, Balanced] at hb
  refine ⟨?_, ?_, ?_, ?_, ?_⟩ <;> omega

/-- The counter stays within the range of the callers, so that a word holds it. -/
theorem counter_range {cnt : ℤ} {s : State C} (h : Reach (system C cnt) s) :
    -(Fintype.card C : ℤ) ≤ s.counter ∧ s.counter ≤ Fintype.card C + 1 := by
  have hb := balanced_run h
  have hv : s.searching ≤ Fintype.card C := tally_le_card _ fun p => Bool.toNat_le p.searches
  have hn : s.waiting ≤ Fintype.card C := tally_le_card _ fun p => Bool.toNat_le p.waits
  rw [State.Balanced, Balanced] at hb
  omega

end Counting

/-- Caller `f` waits with a timeout, `g` does a `V` that counts on it, and `f` times out before it is
    found: the `V` is cancelled, and its permit goes to the next `P`. -/
def cancelledV (f g : C) : List (Action C) :=
  [.P f true, .next f, .next f, .push f, .V g, .next g, .next g, .timeout f, .tryPop g none,
    .next f, .next f, .next g, .next g, .P f false, .next f, .next f]

theorem counter_correct_cancelledV : ∃ s : State (Fin 2), Reach (system (Fin 2) 0) s ∧
    s.counter = 0 ∧ s.granted = 1 ∧ (s.counter ≤ 0 → s.counter = s.searching - s.waiting) ∧
    (s.granted : ℤ) ≤ 0 + s.posted := by
  obtain ⟨s, hr, hp⟩ := reach_of_exec (system (Fin 2) 0) (start 0) (cancelledV 0 1)
    (fun s => decide (s.counter = 0 ∧ s.granted = 1)) ⟨.inl rfl, rfl⟩ (by decide)
  obtain ⟨hcounter, hgranted⟩ := of_decide_eq_true hp
  obtain ⟨hclosed, -, -, -, hbound⟩ := counter_correct hr
  exact ⟨s, hr, hcounter, hgranted, hclosed, hbound⟩

end Libfibre.LimitedTimeoutSemaphore
