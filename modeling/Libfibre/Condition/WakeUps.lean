import Libfibre.Condition.Model
import Libfibre.LockedMutex.Order

/-! What `signal` and `wait` are for. The fibres asleep in `wait` are a queue from which `unblock` takes the
    front and a timer any member: a fibre that sleeps is passed by as many wake-ups as fibres slept
    before it, and by no broadcast. What `wait` returns says how it ended. -/

namespace Libfibre.Condition
open Transition BlockingQueue
open LockedMutex (ahead ahead_append ahead_filter)

variable {F : Type} [DecidableEq F] {s s' t : State F} {f g : F} {a : Action F} {p : Pc}
  {as : List (Action F)}

/-- The fibre that `unblock` takes. -/
def taken (s : State F) : Action F → Option F
  | .unblock _ => (unblock (fun g => (s.pc g).waits) s.bq).1
  | _ => none

/-- A fibre is released by a signal or a broadcast. -/
def wakes (s : State F) (a : Action F) : Bool := (taken s a).isSome

/-- A signal finds nobody, or a broadcast nobody any more. -/
def ends (s : State F) : Action F → Bool
  | .unblock f => !wakes s (.unblock f)
  | _ => false

/-- The timer of a fibre that has slept longer than `f`. -/
def outruns (f : F) (s : State F) : Action F → Bool
  | .timer g => decide (g ∈ ahead f (waiters s))
  | _ => false

/-! ### What a step does to the waiters -/

omit [DecidableEq F] in
theorem mem_waiters (h : Inv s) : f ∈ waiters s ↔ (s.pc f).waits = true := by
  rw [waiters, List.mem_filter, and_iff_right_iff_imp, h.queued]
  intro hf
  obtain ⟨timed, hpc⟩ := waits_iff.mp hf
  rw [hpc]
  rfl

/-- A fibre moves, asleep neither before nor after. -/
theorem waiters_goto (hpc : s'.pc = Function.update s.pc f p) (hbq : s'.bq = s.bq)
    (hp : p.waits = (s.pc f).waits) : waiters s' = waiters s := by
  rw [waiters, waiters, hbq, hpc]
  refine List.filter_congr fun g _ => ?_
  exact Threads.same_at hp g

theorem waiters_blocks (h : Inv s) (hf : (s.pc f).queued = false) (timed : Bool) :
    waiters (State.goto { s with lock := none, bq := s.bq ++ [f] } f (.blocked timed))
      = waiters s ++ [f] := by
  have hmem : f ∉ s.bq := by
    rw [h.queued, hf]
    exact Bool.false_ne_true
  rw [waiters, waiters]
  simp only [State.goto, List.filter_append]
  congr 1
  · refine List.filter_congr fun g hg => ?_
    rw [Function.update_of_ne]
    rintro rfl
    exact hmem hg
  · simp [Pc.waits]

theorem waiters_expires (hp : p.waits = false) (hpc : s'.pc = Function.update s.pc g p)
    (hbq : s'.bq = s.bq) : waiters s' = (waiters s).filter fun k => decide (k ≠ g) := by
  rw [waiters, waiters, List.filter_filter, hbq, hpc]
  refine List.filter_congr fun k _ => ?_
  rcases eq_or_ne k g with rfl | hne
  · rw [Function.update_self, hp]
    simp
  · rw [Function.update_of_ne hne]
    simp [hne]

theorem waiters_removes (h : Inv s) (hf : (s.pc f).waits = false) (hp : p.waits = false) :
    waiters (State.goto { s with lock := none, bq := s.bq.erase f } f p) = waiters s := by
  have hgoto : waiters (State.goto { s with lock := none, bq := s.bq.erase f } f p)
      = waiters { s with lock := none, bq := s.bq.erase f } :=
    waiters_goto rfl rfl (hp.trans hf.symm)
  rw [hgoto, waiters, waiters, h.nodup.erase_eq_filter, List.filter_filter]
  refine List.filter_congr fun g _ => ?_
  rcases eq_or_ne g f with rfl | hne
  · simp [hf]
  · simp [hne]

/-- `unblock` takes the first of the waiters. -/
theorem waiters_takes (h : Inv s) {locked all : Bool} {q : List F}
    (hpc : s.pc f = .signalling locked all)
    (hu : unblock (fun g => (s.pc g).waits) s.bq = (some g, q)) (hp : p.waits = false) :
    waiters s = g :: waiters ((State.goto { s with bq := q } g .granted).goto f p) := by
  obtain ⟨-, hwaits, -, hmem⟩ := mem_unblock_some h.nodup hu
  have hne : f ≠ g := by
    rintro rfl
    rw [hpc] at hwaits
    cases hwaits
  have hf : (State.goto { s with bq := q } g .granted).pc f = .signalling locked all :=
    (Function.update_of_ne hne ..).trans hpc
  have hgoto : waiters ((State.goto { s with bq := q } g .granted).goto f p)
      = waiters (State.goto { s with bq := q } g .granted) :=
    waiters_goto rfl rfl (by rw [hp, hf]; rfl)
  rw [hgoto, waiters, filter_unblock hu, waiters]
  refine congrArg (g :: ·) (List.filter_congr fun k hk => ?_)
  exact congrArg Pc.waits (Function.update_of_ne ((hmem k).mp hk).2 ..).symm

/-! ### Nobody is passed over -/

/-- The front of a queue shrinks by the one that leaves it. -/
theorem length_ahead_filter {l : List F} (hl : l.Nodup) (hne : g ≠ f) :
    (if decide (g ∈ ahead f l) then 1 else 0)
      + (ahead f (l.filter fun k => decide (k ≠ g))).length = (ahead f l).length := by
  have hnodup : (ahead f l).Nodup := hl.sublist (List.takeWhile_sublist _)
  have hfilter : (ahead f l).filter (fun k => decide (k ≠ g)) = (ahead f l).erase g := by
    rw [hnodup.erase_eq_filter]
    exact List.filter_congr fun k _ => decide_not
  rw [ahead_filter hne, hfilter]
  by_cases hg : g ∈ ahead f l
  · have hpos := List.length_pos_of_mem hg
    rw [decide_eq_true hg, if_pos rfl, List.length_erase_of_mem hg]
    omega
  · rw [decide_eq_false hg, if_neg Bool.false_ne_true, List.erase_of_not_mem hg, Nat.zero_add]

/-- STEP: as long as a fibre sleeps, a wake-up is for the first of those before it. -/
theorem ahead_step (h : Inv s) (hf : (s.pc f).waits = true) (hf' : (s'.pc f).waits = true)
    (hs : step s a = some s') :
    (if wakes s a then 1 else 0) + (if outruns f s a then 1 else 0)
      + (ahead f (waiters s')).length = (ahead f (waiters s)).length ∧ ends s a = false := by
  have hmem := (mem_waiters h).mpr hf
  have hsame : waiters s' = waiters s → (wakes s a = false ∧ outruns f s a = false) →
      (if wakes s a then 1 else 0) + (if outruns f s a then 1 else 0)
        + (ahead f (waiters s')).length = (ahead f (waiters s)).length := by
    rintro hw ⟨hwakes, houtruns⟩
    rw [hw, hwakes, houtruns]
    exact Nat.zero_add _
  cases step_cases hs with
  | acquired k hl hpc hs' | released k hpc hs' | late k args hpc _ hs' | cleans k hl hpc hs'
  | regains k ok hl hpc hs' | runs k hpc hs' | leaves k ok hpc hs' =>
    subst hs'
    exact ⟨hsame (waiters_goto rfl rfl (by rw [hpc]; rfl)) ⟨rfl, rfl⟩, rfl⟩
  | signals k locked all hpc hs' =>
    subst hs'
    exact ⟨hsame (waiters_goto rfl rfl (by rw [hpc]; cases locked <;> rfl)) ⟨rfl, rfl⟩, rfl⟩
  | removes k hpc hs' =>
    subst hs'
    exact ⟨hsame (waiters_removes h (by rw [hpc]; rfl) rfl) ⟨rfl, rfl⟩, rfl⟩
  | blocks k args hpc _ hs' =>
    subst hs'
    refine ⟨?_, rfl⟩
    rw [waiters_blocks h (by rw [hpc]; rfl), ahead_append hmem]
    exact Nat.zero_add _
  | takes k locked all g q hpc hu hs' =>
    subst hs'
    have hw := waiters_takes h hpc hu (p := if all then .signalling locked all else .home locked)
      (by cases all <;> cases locked <;> rfl)
    have hne : g ≠ f := by
      rintro rfl
      have hmem' := (mem_waiters (h.step hs)).mpr hf'
      have hnodup : (waiters s).Nodup := h.nodup.filter _
      rw [hw, List.nodup_cons] at hnodup
      exact hnodup.1 hmem'
    have hwakes : wakes s (.unblock k) = true := by rw [wakes, taken, hu]; rfl
    refine ⟨?_, by rw [ends, hwakes]; rfl⟩
    rw [hwakes, hw]
    simp only [ahead, List.takeWhile_cons, hne, ne_eq, not_false_eq_true, decide_true, if_true,
      List.length_cons, outruns, Bool.false_eq_true, if_false]
    omega
  | nobody k locked all hpc hnone hs' =>
    rw [waiters, List.mem_filter] at hmem
    rw [hnone f hmem.1] at hf
    cases hf
  | expires k hpc hs' =>
    subst hs'
    have hne : k ≠ f := by
      rintro rfl
      simp [State.goto, Pc.waits] at hf'
    have hw : waiters (s.goto k .expired) = (waiters s).filter fun j => decide (j ≠ k) :=
      waiters_expires (p := .expired) rfl rfl rfl
    refine ⟨?_, rfl⟩
    have hlen := length_ahead_filter (l := waiters s) (h.nodup.filter _) hne
    rw [hw, ← hlen]
    exact Nat.add_right_cancel_iff.mpr (Nat.zero_add _)

/-- RUN: as long as no two are in the queue at a time, a fibre that sleeps throughout is outlasted by
    those that slept before it, each woken or timed out, and no signal or broadcast finds nobody. -/
theorem wakeups_in_order (h : Reach (system F) s) (he : exec (system F) s as = some t)
    (hw : Along (system F) (fun s => (s.pc f).waits = true) s as) :
    times (system F) wakes s as + times (system F) (outruns f) s as + (ahead f (waiters t)).length
      = (ahead f (waiters s)).length ∧ times (system F) ends s as = 0 := by
  have hinv := inv_of_reach h
  clear h
  induction as generalizing s with
  | nil =>
    rw [exec_nil, Option.some.injEq] at he
    subst he
    exact ⟨Nat.zero_add _, rfl⟩
  | cons a as ih =>
    obtain ⟨u, hu, he⟩ := exec_cons_some he
    obtain ⟨hcount, hends⟩ := ahead_step hinv hw.here (hw.2 u hu).here hu
    obtain ⟨hrest, hnone⟩ := ih he (hw.2 u hu) (hinv.step hu)
    rw [times_cons hu, times_cons hu, times_cons hu, hends, hnone]
    refine ⟨?_, rfl⟩
    omega

/-- Fibres 1, 2 and 3 go to sleep in this order; the timer of the first wins, and a signal takes the
    second. -/
theorem wakeups_in_order_three : ∃ s t : State (Fin 4),
    Transition.exec (system (Fin 4)) s [.timer 1, .acquire 0, .signal 0 false, .unblock 0] = some t ∧
    ((s.pc 3).waits = true ∧ waiters s = [1, 2, 3] ∧ waiters t = [3]) ∧
    times (system (Fin 4)) wakes s [.timer 1, .acquire 0, .signal 0 false, .unblock 0]
      + times (system (Fin 4)) (outruns 3) s [.timer 1, .acquire 0, .signal 0 false, .unblock 0]
      + (ahead 3 (waiters t)).length = (ahead 3 (waiters s)).length ∧
    times (system (Fin 4)) ends s [.timer 1, .acquire 0, .signal 0 false, .unblock 0] = 0 := by
  obtain ⟨s, hs, hp⟩ := reach_of_exec (system (Fin 4)) State.init
    [.acquire 1, .wait 1 (.timeout true), .acquire 2, .wait 2 (.timeout true), .acquire 3,
      .wait 3 (.wait true)]
    (fun s => decide (waiters s = [1, 2, 3]) &&
      along (system (Fin 4)) (fun s => (s.pc 3).waits) s
        [.timer 1, .acquire 0, .signal 0 false, .unblock 0] &&
      ((Transition.exec (system (Fin 4)) s [.timer 1, .acquire 0, .signal 0 false, .unblock 0]).map
        fun t => decide (waiters t = [3])).getD false) rfl (by decide)
  rw [Bool.and_eq_true, Bool.and_eq_true] at hp
  obtain ⟨⟨hw, hal⟩, hrun⟩ := hp
  have hal := Along.of_along hal
  cases he : Transition.exec (system (Fin 4)) s [.timer 1, .acquire 0, .signal 0 false, .unblock 0] with
  | none => rw [he] at hrun; cases hrun
  | some t =>
    rw [he] at hrun
    exact ⟨s, t, he, ⟨hal.here, of_decide_eq_true hw, of_decide_eq_true hrun⟩,
      wakeups_in_order hs he hal⟩

/-! ### What `wait` returns -/

/-- `f` is released by a signal or a broadcast. -/
def takenBy (f : F) (s : State F) (a : Action F) : Bool := decide (taken s a = some f)

/-- `f` calls `wait`. -/
def calls (f : F) (_ : State F) : Action F → Bool
  | .wait g _ => decide (g = f)
  | _ => false

/-- The deadline of `f` passes: before it can block, or while it sleeps. -/
def misses (f : F) (_ : State F) : Action F → Bool
  | .wait g args => decide (g = f) && !args.blocks
  | .timer g => decide (g = f)
  | _ => false

/-- The `wait` of `f` returns `ok`. -/
def returns (ok : Bool) (f : F) (_ : State F) : Action F → Bool
  | .run g => ok && decide (g = f)
  | .remove g => !ok && decide (g = f)
  | .wait g args => !ok && (decide (g = f) && !args.blocks)
  | _ => false

/-- `wait` is going to return `ok`. -/
def Pc.returning : Bool → Pc → Bool
  | true, .granted => true
  | false, .expired | false, .cleaning => true
  | _, _ => false

/-- The books of one fibre: what has happened to it is what `wait` has returned to it, or will. -/
structure Books (f : F) (s s' : State F) (a : Action F) : Prop where
  woken : (if takenBy f s a then 1 else 0) + ((s.pc f).returning true).toNat
    = (if returns true f s a then 1 else 0) + ((s'.pc f).returning true).toNat
  missed : (if misses f s a then 1 else 0) + ((s.pc f).returning false).toNat
    = (if returns false f s a then 1 else 0) + ((s'.pc f).returning false).toNat
  called : (if calls f s a then 1 else 0) + (s.pc f).waits.toNat
    = (if takenBy f s a || misses f s a then 1 else 0) + (s'.pc f).waits.toNat

/-- Another fibre moves. -/
theorem Books.other (hpc : s'.pc f = s.pc f) (htaken : takenBy f s a = false)
    (hmisses : misses f s a = false) (hcalls : calls f s a = false)
    (hreturns : ∀ ok, returns ok f s a = false) : Books f s s' a :=
  ⟨by rw [hpc, htaken, hreturns], by rw [hpc, hmisses, hreturns],
    by rw [hpc, hcalls, htaken, hmisses]; rfl⟩

/-- STEP: the books stay balanced. -/
theorem books_step (h : Inv s) (hs : step s a = some s') : Books f s s' a := by
  cases step_cases hs with
  | takes k locked all g q hpc hu hs' =>
    obtain ⟨-, hwaits, -, -⟩ := mem_unblock_some h.nodup hu
    have hne : k ≠ g := by
      rintro rfl
      rw [hpc] at hwaits
      cases hwaits
    obtain ⟨timed, hg⟩ := waits_iff.mp hwaits
    have htaken : taken s (.unblock k) = some g := by rw [taken, hu]
    clear hu
    subst hs'
    rcases eq_or_ne f g with rfl | hfg
    · constructor <;>
        simp [takenBy, htaken, misses, calls, returns, hg, State.goto, hne.symm, Pc.returning, Pc.waits]
    · rcases eq_or_ne f k with rfl | hfk
      · constructor <;> cases all <;> cases locked <;>
          simp [takenBy, htaken, misses, calls, returns, hpc, State.goto, hfg.symm, Pc.returning,
            Pc.home, Pc.waits]
      · exact .other (by simp [State.goto, hfk, hfg]) (by simp [takenBy, htaken, hfg.symm]) rfl rfl
          fun _ => rfl
  | nobody k locked all hpc hnone hs' =>
    have htaken : takenBy f s (.unblock k) = false := by
      rcases hu : unblock (fun g => (s.pc g).waits) s.bq with ⟨next, q⟩
      cases next with
      | none => simp [takenBy, taken, hu]
      | some g =>
        obtain ⟨hmem, hwaits, -, -⟩ := mem_unblock_some h.nodup hu
        rw [hnone g hmem] at hwaits
        cases hwaits
    subst hs'
    rcases eq_or_ne f k with rfl | hfk
    · constructor <;> cases locked <;>
        simp [htaken, misses, calls, returns, hpc, State.goto, Pc.home, Pc.returning, Pc.waits]
    · exact .other (by simp [State.goto, hfk]) htaken rfl rfl fun _ => rfl
  | signals k locked all hpc hs' =>
    subst hs'
    rcases eq_or_ne f k with rfl | hfk
    · constructor <;> cases locked <;>
        simp [takenBy, taken, misses, calls, returns, State.goto, Pc.home, Pc.returning, Pc.waits, hpc]
    · exact .other (by simp [State.goto, hfk]) rfl rfl rfl fun _ => rfl
  | acquired k hl hpc hs' | released k hpc hs' | cleans k hl hpc hs'
  | regains k ok hl hpc hs' | leaves k ok hpc hs' | runs k hpc hs' | removes k hpc hs'
  | expires k hpc hs' | blocks k args hpc hb hs' | late k args hpc hb hs' =>
    subst hs'
    rcases eq_or_ne f k with rfl | hfk
    · constructor <;>
        simp [takenBy, taken, misses, calls, returns, State.goto, Pc.returning, Pc.waits, *]
    · exact .other (by simp [State.goto, hfk]) rfl (by simp [misses, hfk.symm])
        (by simp [calls, hfk.symm]) fun ok => by simp [returns, hfk.symm]

/-- RUN: as long as no two are in the queue at a time, `wait` returns `true` as often as a signal or a
    broadcast has released the fibre, `false` as often as its deadline has passed, and every call ends in one
    of the two; at most one fibre has the mutex. -/
theorem wait_results (he : exec (system F) State.init as = some t) (f : F) :
    times (system F) (takenBy f) State.init as
      = times (system F) (returns true f) State.init as + ((t.pc f).returning true).toNat ∧
    times (system F) (misses f) State.init as
      = times (system F) (returns false f) State.init as + ((t.pc f).returning false).toNat ∧
    times (system F) (calls f) State.init as
      = times (system F) (fun s a => takenBy f s a || misses f s a) State.init as
        + (t.pc f).waits.toNat ∧
    ∀ g, (t.pc f).locks = true → (t.pc g).locks = true → g = f := by
  have hkeep : ∀ (s : State F) a s', Inv s → (system F).step s a = some s' → Inv s' :=
    fun _ _ _ hi hs => hi.step hs
  have hwoken := times_balance hkeep (fun s a s' hi hs => (books_step (f := f) hi hs).woken) inv_init he
  have hmissed := times_balance hkeep (fun s a s' hi hs => (books_step (f := f) hi hs).missed) inv_init he
  have hcalled := times_balance hkeep (fun s a s' hi hs => (books_step (f := f) hi hs).called) inv_init he
  exact ⟨hwoken, hmissed, hcalled, fun g hf hg =>
    Threads.locked_eq (inv_exec hkeep inv_init he).lock hf hg⟩

/-- Fibre 1 waits twice: its timer wins the first time, a signal without the mutex the second. -/
theorem wait_results_twice : ∃ (as : List (Action (Fin 2))) (t : State (Fin 2)),
    Transition.exec (system (Fin 2)) State.init as = some t ∧ t.pc 1 = .own ∧
    times (system (Fin 2)) (takenBy 1) State.init as
      = times (system (Fin 2)) (returns true 1) State.init as + ((t.pc 1).returning true).toNat ∧
    times (system (Fin 2)) (misses 1) State.init as
      = times (system (Fin 2)) (returns false 1) State.init as + ((t.pc 1).returning false).toNat ∧
    times (system (Fin 2)) (calls 1) State.init as
      = times (system (Fin 2)) (fun s a => takenBy 1 s a || misses 1 s a) State.init as
        + (t.pc 1).waits.toNat ∧
    ∀ g, (t.pc 1).locks = true → (t.pc g).locks = true → g = 1 := by
  have hrun : (Transition.exec (system (Fin 2)) State.init
      [.acquire 1, .wait 1 (.timeout true), .timer 1, .acquire 0, .signal 0 false, .unblock 0,
        .release 0, .relock 1, .remove 1, .relock 1, .wait 1 (.wait true), .signal 0 false,
        .unblock 0, .run 1, .relock 1]).map
      (fun t => decide (t.pc 1 = .own)) = some true := by decide
  obtain ⟨t, he, hp⟩ := Option.map_eq_some_iff.mp hrun
  exact ⟨_, t, he, of_decide_eq_true hp, wait_results he 1⟩

end Libfibre.Condition
